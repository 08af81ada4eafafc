import WorkflowEngine.Results
import WorkflowEngine.Staging
import WorkflowEngine.StepHistory
import WorkflowEngine.Singleton
import WorkflowEngine.Executable
import WorkflowEngine.Sweeping
import WorkflowEngine.Concurrency
import WorkflowEngine.DefinitionJson
import WorkflowEngine.WorkerPool
import WorkflowEngine.DataThreading
import WorkflowEngine.RowShapes
import WorkflowEngine.HttpTransport
import WorkflowEngine.Calendar
import WorkflowEngine.Identity
import WorkflowEngine.Deadlines
import WorkflowEngine.Integers
import WorkflowEngine.Refusals
import WorkflowEngine.Expiry
import WorkflowEngine.Attribution
import WorkflowEngine.PoolStopping
import WorkflowEngine.Timeliness
import WorkflowEngine.Realization
import WorkflowEngine.Overtaking
import WorkflowEngine.SweepThread
