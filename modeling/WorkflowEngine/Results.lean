import WorkflowEngine.Leases

/-!
# Results and claims

A worker's result names an execution, a step and a worker, not an attempt or a
claim. What an accepted result changes is the current attempt under the latest
claim of its execution, which the same worker holds. Each claim has at most one
result applied to it.
-/

namespace WorkflowEngine
open Txn Ledger

/-- A step handed out by the poll at this place of a history. -/
structure Claim where
  poll : ℕ
  step : WorkflowStepExecution

def claimsFrom : ℕ → List Entry → List Claim
  | _, [] => []
  | n, x :: h => x.claimed.map (Claim.mk n) ++ claimsFrom (n + 1) h

def claims (h : List Entry) : List Claim := claimsFrom 0 h

def latest (cs : List Claim) (id : String) : Option Claim :=
  (cs.filter fun c => c.step.workflowExecutionId = id).getLast?

theorem claimsFrom_append (n : ℕ) (h h' : List Entry) :
    claimsFrom n (h ++ h') = claimsFrom n h ++ claimsFrom (n + h.length) h' := by
  induction h generalizing n with
  | nil => rfl
  | cons x h ih =>
    simp only [List.cons_append, claimsFrom, ih, List.append_assoc, List.length_cons]
    rw [Nat.add_assoc, Nat.add_comm 1]

theorem latest_concat (cs : List Claim) (c : Claim) (id : String) :
    latest (cs ++ [c]) id =
      if c.step.workflowExecutionId = id then some c else latest cs id := by
  unfold latest
  split_ifs with h
  · simp [List.filter_append, h]
  · simp [List.filter_append, h]

theorem latest_split {cs : List Claim} {c : Claim} {id : String} (h : latest cs id = some c) :
    ∃ before after, cs = before ++ c :: after ∧
      ∀ own ∈ cs, own.step.workflowExecutionId = id → own = c ∨ own ∈ before := by
  induction cs using List.reverseRecOn with
  | nil => simp [latest] at h
  | append_singleton cs last ih =>
    rw [latest_concat] at h
    split_ifs at h with hid
    · obtain rfl := Option.some_inj.mp h
      refine ⟨cs, [], rfl, ?_⟩
      intro own hown _
      rcases List.mem_append.mp hown with hown | hown
      · exact .inr hown
      · exact .inl (List.mem_singleton.mp hown)
    · obtain ⟨before, after, rfl, hall⟩ := ih h
      refine ⟨before, after ++ [last], by simp, ?_⟩
      intro own hown hownid
      rcases List.mem_append.mp hown with hown | hown
      · exact hall own hown hownid
      · rw [List.mem_singleton.mp hown] at hownid
        exact absurd hownid hid

def Event.claims (n : ℕ) : Event → List Claim
  | .claimed s _ => [⟨n, s⟩]
  | _ => []

theorem Event.claims_subject {ev : Event} {n : ℕ} {c : Claim} (h : c ∈ ev.claims n) :
    ev.subject = some c.step.workflowExecutionId := by
  cases ev with
  | claimed s now =>
    rw [List.mem_singleton.mp h]
    rfl
  | _ => cases h

theorem latest_append {cs ds : List Claim} {id : String}
    (h : ∀ d ∈ ds, d.step.workflowExecutionId ≠ id) : latest (cs ++ ds) id = latest cs id := by
  have hnone : ds.filter (fun c => decide (c.step.workflowExecutionId = id)) = [] :=
    List.filter_eq_nil_iff.mpr fun d hd => by simpa using h d hd
  rw [latest, List.filter_append, hnone, List.append_nil, latest]

namespace Ledger
variable {L L' : Ledger} {ev : Event} {id : String} {cs : List Claim} {n m : ℕ}

/-- Whoever works on the execution does so under its latest claim, made at place `n` or later. -/
def UnderClaim (n : ℕ) (cs : List Claim) (L : Ledger) (id : String) : Prop :=
  ∀ e s, L.Current e s → e.workflowExecutionId = id → s.status = .running →
    ∃ c, latest cs id = some c ∧ c.step.stepKey = e.currentKey ∧ c.step.workerId = s.workerId ∧
      n ≤ c.poll

theorem Idle.underClaim (h : Idle L id) : UnderClaim n cs L id :=
  fun e s hc hid hr => absurd hr (h e s hc hid)

theorem idle_empty : Idle empty id := by
  intro e s hc _ _
  have hex := hc.execution
  cases hex

theorem Transition.underClaim (h : Transition L ev L') (inv : Lifecycle L)
    (under : UnderClaim n cs L id) (hm : n ≤ m) : UnderClaim n (cs ++ ev.claims m) L' id := by
  intro e s hc hid hr
  rcases h.current inv hc hr with ⟨hold, hsub⟩ | ⟨s', now, rfl, hk, rfl⟩ | ⟨s', w, now, rfl, held, hw⟩
  · have hother : ∀ d ∈ ev.claims m, d.step.workflowExecutionId ≠ id := by
      intro d hd he
      rw [Event.claims_subject hd, he, hid] at hsub
      exact hsub rfl
    rw [latest_append hother]
    exact under e s hold hid hr
  · have hs' : s'.workflowExecutionId = id :=
      (congrArg StepKey.workflowExecutionId hk).trans hid
    refine ⟨⟨m, s'⟩, ?_, hk, rfl, hm⟩
    rw [Event.claims, latest_concat, if_pos hs']
  · have hnone : (Event.renewed e.currentKey w now).claims m = [] := rfl
    rw [hnone, List.append_nil, hw]
    exact under e s' held.toCurrent hid held.claimed

theorem underClaim_of_run {evs : List Event} (h : Systems.Run Transition L evs L')
    (inv : Lifecycle L) (under : UnderClaim n cs L id) (hm : n ≤ m) :
    UnderClaim n (cs ++ evs.flatMap (Event.claims m)) L' id := by
  induction h with
  | nil =>
    rw [List.flatMap_nil, List.append_nil]
    exact under
  | snoc run last ih =>
    rw [List.flatMap_append, List.flatMap_singleton, ← List.append_assoc]
    exact last.underClaim (lifecycle_of_run run inv) ih hm

end Ledger

variable {E : Engine schema} {db db' : E.Db} {id name workerId : String} {n : ℕ}

theorem Effect.claims {L L' : Ledger} {now : TimePoint} {op : Operation} {r : Response}
    {evs : List Event} (h : Effect L now op r evs L') (x : Entry) (hx : x.result = .ok r) :
    evs.flatMap (Event.claims n) = x.claimed.map (Claim.mk n) := by
  simp only [Entry.claimed, hx]
  cases h with
  | pollAndClaimWorkflowSteps claims complete =>
    rename_i steps
    rw [List.flatMap_map, List.map_eq_flatMap]
    rfl
  | completeStep event step => rcases event with rfl | ⟨next, rfl⟩ <;> rfl
  | failStep event step => rcases event with rfl | rfl <;> rfl
  | sweepExpiredLeases events run counted swept =>
    refine List.flatMap_eq_nil_iff.mpr fun ev hev => ?_
    obtain ⟨key, hev⟩ := events ev hev
    rcases hev with rfl | rfl <;> rfl
  | _ => rfl

theorem Entry.Step.underClaim {x : Entry} {cs : List Claim} {m : ℕ} (step : Entry.Step db x db')
    (sound : Sound db) (under : UnderClaim n cs (view db) id) (hm : n ≤ m) :
    UnderClaim n (cs ++ x.claimed.map (Claim.mk m)) (view db') id := by
  obtain ⟨hstep, hresult⟩ := step
  rcases hstep.cases sound with ⟨r, evs, hr, heff, -⟩ | ⟨⟨ex, herr⟩, rfl⟩
  · rw [← heff.claims x (hresult.trans hr)]
    exact underClaim_of_run heff.run sound.lifecycle under hm
  · have hnone : x.claimed = [] := by rw [Entry.claimed, hresult, herr]
    rw [hnone, List.map_nil, List.append_nil]
    exact under

theorem History.underClaim {h : List Entry} {cs : List Claim} (run : History E db h db')
    (sound : Sound db) (under : UnderClaim n cs (view db) id) :
    UnderClaim n (cs ++ claimsFrom n h) (view db') id := by
  have hI := run.history
    (I := fun h db => Sound db ∧ UnderClaim n (cs ++ claimsFrom n h) (view db) id)
    (fun h db x db' _ ⟨sound, under⟩ step => by
      refine ⟨step.1.sound sound, ?_⟩
      rw [claimsFrom_append, ← List.append_assoc]
      simpa only [claimsFrom, List.append_nil] using
        step.underClaim sound under (Nat.le_add_right n h.length))
    ⟨sound, by simpa only [claimsFrom, List.append_nil] using under⟩
  exact hI.2

def Operation.message : Operation → Option (String × String × String)
  | .completeStep id name workerId _ _ | .failStep id name workerId _ => some (id, name, workerId)
  | _ => none

theorem Operation.request_of_message {op : Operation} {q : String × String × String}
    (h : op.message = some q) : op.request = some q := by
  cases op <;> first | exact h | cases h

theorem Effect.rests {L L' : Ledger} {now : TimePoint} {op : Operation} {r : Response}
    {evs : List Event} (h : Effect L now op r evs L') (hm : op.message = some (id, name, workerId)) :
    Idle L' id := by
  cases h with
  | completeStep event step =>
    cases hm
    rcases event with rfl | ⟨next, rfl⟩
    · exact step.idle rfl
    · exact step.idle rfl
  | failStep event step =>
    cases hm
    rcases event with rfl | rfl
    · exact step.idle rfl
    · exact step.idle rfl
  | _ => cases hm

theorem History.sound {h : List Entry} (run : History E db h db') (sound : Sound db) : Sound db' :=
  sound_of_calls run.calls sound

def Entry.Accepted (x : Entry) (id : String) : Prop :=
  (∃ name workerId, x.call.operation.message = some (id, name, workerId)) ∧ ∃ r, x.result = .ok r

theorem History.claimed_after {h₁ h₂ : List Entry} {x : Entry}
    (run : History E E.empty (h₁ ++ x :: h₂) db) (accepted : x.Accepted id) :
    UnderClaim (h₁.length + 1) (claims (h₁ ++ x :: h₂)) (view db) id := by
  obtain ⟨⟨name, workerId, hm⟩, r, hr⟩ := accepted
  obtain ⟨db₁, run₁, run₂⟩ := run.append_inv
  obtain ⟨db₂, ⟨hstep, hresult⟩, run₂⟩ := run₂.cons_inv
  have sound₁ : Sound db₁ := History.sound run₁ sound_empty
  have hidle : Idle (view db₂) id := by
    rcases hstep.cases sound₁ with ⟨r', evs, -, heff, -⟩ | ⟨⟨ex, herr⟩, -⟩
    · exact heff.rests hm
    · rw [hr, herr] at hresult
      cases hresult
  have hclaims : claims (h₁ ++ x :: h₂) = claims (h₁ ++ [x]) ++ claimsFrom (h₁.length + 1) h₂ := by
    rw [List.append_cons, claims, claimsFrom_append, Nat.zero_add, List.length_append,
      List.length_singleton]
    rfl
  rw [hclaims]
  exact History.underClaim run₂ (hstep.sound sound₁) hidle.underClaim

/-- What an accepted result finds and leaves. -/
theorem accepted_result {c : Call} {r : Response} {cs : List Claim} (sound : Sound db)
    (under : UnderClaim n cs (view db) id)
    (hm : c.operation.message = some (id, name, workerId)) (hr : c.result db = .ok r) :
    ∃ claim row deadline, latest cs id = some claim ∧ n ≤ claim.poll ∧
      claim.step.stepName = name ∧ claim.step.workerId = some workerId ∧
      E.get db .steps claim.step.stepKey.text = some row ∧ Leased row workerId deadline ∧
      c.now < deadline ∧
      ∀ row', E.get (c.after db) .steps claim.step.stepKey.text = some row' →
        row'.fromRow.status ≠ .running := by
  have hreq := Operation.request_of_message hm
  have hstep : Call.Step db c (c.after db) := ⟨Call.fresh_of_request hreq, rfl⟩
  rcases hstep.cases sound with ⟨r', evs, -, heff, -⟩ | ⟨⟨ex, herr⟩, -⟩
  swap
  · rw [hr] at herr
    cases herr
  obtain ⟨ev, k, -, ht, hev, hid, hname⟩ := heff.request hreq
  obtain ⟨e, s, held, rfl⟩ := ht.held hev
  obtain ⟨claim, hlatest, hkey, hworker, hn⟩ := under e s held.toCurrent hid held.claimed
  obtain ⟨deadline, hd, hlt⟩ := held.lease
  obtain ⟨row, hrow, rfl, hk⟩ := view_step.mp held.step
  refine ⟨claim, row, deadline, hlatest, hn, ?_, hworker.trans held.owner, hkey ▸ hrow,
    ⟨held.claimed, held.owner, hd⟩, hlt, ?_⟩
  · exact (congrArg StepKey.stepName hkey).trans hname
  · intro row' hrow' hrun
    have hfound : E.get db .steps row.key = some row := by
      have hkt : row.key = e.currentKey.text := E.key_of_get db .steps _ row hrow
      rw [hkt]
      exact hrow
    have hplain : PlainId e.currentKey.workflowExecutionId :=
      hk ▸ (sound.encoded.step_row hfound).2.1
    have sound' := hstep.sound sound
    obtain ⟨hstep', -⟩ := sound'.encoded.step hplain (hkey ▸ hrow')
    obtain ⟨e', hc', hk', -, -⟩ := sound'.lifecycle.current_of_active hstep' (.inr hrun)
    exact heff.rests hm e' row'.fromRow hc'
      ((congrArg StepKey.workflowExecutionId hk').trans hid) hrun

theorem poll_lt_of_mem_claimsFrom {h : List Entry} {c : Claim} {m : ℕ}
    (hc : c ∈ claimsFrom m h) : c.poll < m + h.length := by
  induction h generalizing m with
  | nil => cases hc
  | cons x h ih =>
    rcases List.mem_append.mp hc with hc | hc
    · obtain ⟨s, -, rfl⟩ := List.mem_map.mp hc
      exact Nat.lt_add_of_pos_right (Nat.succ_pos _)
    · have hlt := ih hc
      rw [List.length_cons]
      omega

theorem latest_mem {cs : List Claim} {c : Claim} (h : latest cs id = some c) : c ∈ cs := by
  obtain ⟨before, after, rfl, -⟩ := latest_split h
  simp

def Claim.message (c : Claim) : Option (String × String × String) :=
  c.step.workerId.map fun workerId => (c.step.workflowExecutionId, c.step.stepName, workerId)

/-- An accepted result changes the claimed row of its execution's latest claim, which is the one
it was produced for or a later claim of the same step by the same worker; each claim is used up by
the first result accepted under it. -/
theorem result_under_latest_claim {h : List Entry} {c : Call} {r : Response}
    (run : History E E.empty h db) (hm : c.operation.message = some (id, name, workerId))
    (hr : c.result db = .ok r) :
    ∃ claim row deadline before after,
      claims h = before ++ claim :: after ∧ claim.message = some (id, name, workerId) ∧
      (∀ own ∈ claims h, own.step.workflowExecutionId = id → own = claim ∨ own ∈ before) ∧
      E.get db .steps claim.step.stepKey.text = some row ∧ Leased row workerId deadline ∧
      c.now < deadline ∧
      (∀ row', E.get (c.after db) .steps claim.step.stepKey.text = some row' →
        row'.fromRow.status ≠ .running) ∧
      ∀ h₁ x h₂, h = h₁ ++ x :: h₂ → x.Accepted id →
        h₁.length < claim.poll ∧ latest (claims h₁) id ≠ some claim := by
  have sound : Sound db := History.sound run sound_empty
  have under₀ : UnderClaim 0 [] (view (E := E) E.empty) id := by
    rw [view_empty]
    exact idle_empty.underClaim
  have under : UnderClaim 0 (claims h) (view db) id := History.underClaim run sound_empty under₀
  obtain ⟨claim, row, deadline, hlatest, -, hname, hworker, hrow, leased, hlt, hdone⟩ :=
    accepted_result sound under hm hr
  obtain ⟨before, after, hsplit, hown⟩ := latest_split hlatest
  have hid : claim.step.workflowExecutionId = id := by
    have hfilter := List.mem_of_getLast? hlatest
    simpa using (List.mem_filter.mp hfilter).2
  refine ⟨claim, row, deadline, before, after, hsplit, ?_, hown, hrow, leased, hlt, hdone, ?_⟩
  · rw [Claim.message, hworker, hid, hname]
    rfl
  · intro h₁ x h₂ h accepted
    obtain rfl := h
    obtain ⟨claim', -, -, hlatest', hpoll, -⟩ :=
      accepted_result sound (History.claimed_after run accepted) hm hr
    rw [hlatest] at hlatest'
    obtain rfl := Option.some_inj.mp hlatest'
    refine ⟨hpoll, fun hold => ?_⟩
    have hbefore := poll_lt_of_mem_claimsFrom (latest_mem hold)
    omega

theorem result_under_latest_claim_shipped :
    let calls := Sample.begin (Sample.definition false 0)
    let claimed := calls ++ [Sample.poll 2000000 "first" (Sample.script 0 "ship" calls)]
    ∃ claim ∈ claims (record Sample.store Sample.store.empty claimed),
      claim.message = some (Sample.id 0, "ship", "first") := by
  intro calls claimed
  have run : History Sample.store _ (record Sample.store _ claimed) (Sample.after claimed) :=
    history_record (by decide +kernel)
  have hresult : ∃ r, (Sample.complete 3000000 "first" { workflowComplete := true }).result
      (Sample.after claimed) = .ok r :=
    Call.returns (by decide +kernel)
  obtain ⟨r, hr⟩ := hresult
  have hm : (Sample.complete 3000000 "first" { workflowComplete := true }).operation.message =
      some (Sample.id 0, "ship", "first") := rfl
  obtain ⟨claim, -, -, before, after, hsplit, hmessage, -⟩ := result_under_latest_claim run hm hr
  exact ⟨claim, by simp [hsplit], hmessage⟩

/-- A worker whose lease ran out claims the retry as well; the late result of its first claim is
then taken for the second. -/
theorem late_result_accepted_for_retry :
    ¬ ∀ (h : List Entry) (db : Sample.store.Db) (own : Claim) (c : Call) (r : Response),
      History Sample.store Sample.store.empty h db → own ∈ claims h →
      c.operation.message = own.message → c.result db = .ok r →
      latest (claims h) own.step.workflowExecutionId = some own := by
  intro hall
  have run : History Sample.store _ (record Sample.store _ Sample.lapse)
      (Sample.after Sample.lapse) := history_record (by decide +kernel)
  have hresult : ∃ r, (Sample.complete 22000000000 "first" { workflowComplete := true }).result
      (Sample.after Sample.lapse) = .ok r :=
    Call.returns (by decide +kernel)
  obtain ⟨r, hr⟩ := hresult
  have hfirst : (claims (record Sample.store Sample.store.empty Sample.lapse)).head?.map (fun c =>
      (c.step.workflowExecutionId, c.step.attempt, c.message)) =
      some (Sample.id 0, 0, some (Sample.id 0, "ship", "first")) := by
    decide +kernel
  have hlast : (latest (claims (record Sample.store Sample.store.empty Sample.lapse))
      (Sample.id 0)).map (fun c => c.step.attempt) = some 1 := by
    decide +kernel
  obtain ⟨own, hown, hfields⟩ := Option.map_eq_some_iff.mp hfirst
  simp only [Prod.mk.injEq] at hfields
  obtain ⟨hid, hattempt, hmessage⟩ := hfields
  have hlatest := hall _ _ own (Sample.complete 22000000000 "first" { workflowComplete := true })
    r run (List.mem_of_head? hown) hmessage.symm hr
  rw [hid] at hlatest
  rw [hlatest, Option.map_some, hattempt] at hlast
  cases hlast

end WorkflowEngine
