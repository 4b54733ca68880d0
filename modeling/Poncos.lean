import Poncos.Library.StdSort
import Poncos.MultiApp.Deadlock
import Poncos.MultiApp.Locking
import Poncos.TwoApp.HandOut
import Poncos.MultiApp.ValidPlacement
import Poncos.MultiApp.BandwidthCap
import Poncos.MultiApp.SlotChoice
import Poncos.MultiApp.Selection
import Poncos.MultiApp.SwapCandidates
import Poncos.MultiApp.ListingOrder
import Poncos.MultiAppConsec.ExclusiveNodes
import Poncos.Schedulers.Isolation
import Poncos.Schedulers.JobsDone
import Poncos.Schedulers.Processes
import Poncos.Schedulers.Admission
import Poncos.Vm.Placement
import Poncos.Vm.SlotFile
import Poncos.Controller.MachineFile
import Poncos.Schedulers.Timers
import Poncos.Schedulers.Responses
import Poncos.Schedulers.Domains
import Poncos.Schedulers.RowLengths
import Poncos.MultiAppConsec.Termination
import Poncos.Messages.Requests
import Poncos.Messages.Result
import Poncos.Mqtt.WakeUps
import Poncos.Mqtt.CrossTalk
import Poncos.TwoApp.Termination
import Poncos.MultiApp.Termination
