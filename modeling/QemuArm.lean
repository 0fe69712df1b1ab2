import QemuArm.MemoryMap
import QemuArm.MemoryListeners
import QemuArm.DispatchLookup
import QemuArm.HBitmapStale
import QemuArm.RamSaveXbzrle
import QemuArm.Qcow2CacheCounts
import QemuArm.ArmGicSgi
import QemuArm.CoroutineQueues
import QemuArm.StreamCommitView
import QemuArm.VhdxLogCrash
import QemuArm.VmStateRoundTrip
import QemuArm.BlockWriteData
import QemuArm.JsonMessages
import QemuArm.CpuTlbFlush
import QemuArm.Multiwrite
import QemuArm.Qcow2RefAtomic
import QemuArm.Qcow2Bytes
import QemuArm.Qcow2Discard
import QemuArm.DmaDirty
import QemuArm.Qcow2PendingDiscard
import QemuArm.RamOffset
import QemuArm.PageCacheResize
import QemuArm.VirtioNotify
import QemuArm.BackupScan
import QemuArm.BlockDiscard
import QemuArm.NandEcc
import QemuArm.NvicNumbers
import QemuArm.Ftintc020
