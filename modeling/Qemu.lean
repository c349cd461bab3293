import Qemu.Acpi.CrsRanges
import Qemu.Util.Div256Exact
import Qemu.Util.HBitmapRoundTrip
import Qemu.Migration.XbzrleRefines
import Qemu.Qcow2.CacheOrder
import Qemu.Qcow2.FreeRefines
import Qemu.Block.Alignment
import Qemu.Block.BlockCopy
import Qemu.Block.RmwErrors
import Qemu.Block.StatusAbove
import Qemu.Block.SerialisingWidening
import Qemu.Qcow2.CompressedEntry
import Qemu.Qcow2.RefcountAccess
import Qemu.Qcow2.ZeroEffect
import Qemu.Memory.FlatViewRoot
import Qemu.Memory.DispatchLookup
import Qemu.Migration.HostPages
import Qemu.Migration.MappedRamSafety
import Qemu.Migration.PageSearchGap
import Qemu.Migration.PreemptionSafety
import Qemu.Migration.XbzrleCoherence
import Qemu.Json.StreamSafety
import Qemu.Memory.LateListeners
import Qemu.Block.CopyBeforeWriteExact
import Qemu.Util.Int128
import Qemu.Util.HBitmapQueries
import Qemu.Util.HBitmapConcurrent
