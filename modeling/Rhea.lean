import Rhea.Handover
import Rhea.Acknowledged
import Rhea.Status
import Rhea.InTurn
import Rhea.Batch
import Rhea.Completion
import Rhea.Delivery
import Rhea.Lib.Words
import Rhea.ReadPath
import Rhea.ReadYourWrites
import Rhea.Regulator.Jobs
import Rhea.Regulator.NodeVar
import Rhea.Regulator.Pass
import Rhea.Regulator.Sections
import Rhea.Destinations
import Rhea.Order
import Rhea.Agreement
import Rhea.Codec
import Rhea.FailedPublish
import Rhea.TaskGraph
import Rhea.Fairness
import Rhea.Lib.Deferred
import Rhea.Lib.SharedMutex
import Rhea.Linearizability
import Rhea.Liveness
import Rhea.Regulator.Atomicity
import Rhea.Regulator.Hangs
import Rhea.Returns
import Rhea.Workload
import Rhea.Regulator.Demand
