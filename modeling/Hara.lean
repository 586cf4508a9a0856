import Hara.Bundle.Load
import Hara.Bundle.RoundTrip
import Hara.Bundle.SourceOrder
import Hara.Champ.Canonical
import Hara.Deque.Refinement
import Hara.File.Memory
import Hara.Hta.ViewSpec
import Hara.Instrumentation.Run
import Hara.Package.DependencyOrder
import Hara.PriorityMap.Refinement
import Hara.Queue.Refinement
import Hara.Raw.Routing
import Hara.Resp.Dialogue
import Hara.Resp.Framing
import Hara.SortedMap.Rank
import Hara.Task.Progress
import Hara.Values.DecimalHash
import Hara.Values.HashEq
import Hara.Values.Numeric
import Hara.Values.NumericHash
import Hara.Vector.History
import Hara.Vm.BindingForm
import Hara.Vm.Compiler.LetfnScope
import Hara.WholeWasm.Representations
