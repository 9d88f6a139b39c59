import Icewind.Jib.ConvertCorrect
import Icewind.JibLegacy.Resolve
import Icewind.X86.LayoutCorrect
import Icewind.X86.AllocatorCalls
import Icewind.X86.AllocatorCorrect
import Icewind.Common.RingBuffer
import Icewind.Virtio.Queue
import Icewind.Brig.RegionMapping
import Icewind.Brig.EmbeddedRegisters
import Icewind.Dbt.ReadOnPath
import Icewind.Dbt.BumpAlloc
import Icewind.Dbt.RegisterFile
import Icewind.Brig.ChainLookup
import Icewind.Ptwrite.ReaderRun
import Icewind.Rudder.BlockInliner
import Icewind.Rudder.DeadWrites
import Icewind.Rudder.UnusedParametersSound
import Icewind.Rudder.BuildGraph
import Icewind.Boom.FoldBehaviour
import Icewind.X86.OperandCoverage
import Icewind.Boom.BlockHandles
import Icewind.Boom.BlockIterators
import Icewind.Boom.DestructComposites
import Icewind.Rudder.RegisterLayout
import Icewind.Brig.GicUpdate
import Icewind.Brig.GicNesting
import Icewind.Brig.GenericTimer
import Icewind.Brig.AddressSpace
import Icewind.Kernel.SmcProtection
import Icewind.X86.BitReplicate
import Icewind.Rudder.Concat
import Icewind.X86.Shift128
import Icewind.X86.Assert
