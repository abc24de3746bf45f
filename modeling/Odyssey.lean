import Odyssey.Rtl.AvlMap
import Odyssey.Cm.KeyLeaf
import Odyssey.Cm.HiveRoundTrip
import Odyssey.Mm.VadSearch
import Odyssey.Ex.HandleFree
import Odyssey.Ex.ResourceRuns
import Odyssey.Mm.SystemPteRuns
import Odyssey.Mm.NonPagedPoolRuns
import Odyssey.Mm.RegionCalls
import Odyssey.Ke.SchedulerRuns
import Odyssey.Ke.DeviceQueue
import Odyssey.Rtl.AclEdit
import Odyssey.Rtl.SdConversion
import Odyssey.Rtl.HeapUcr
import Odyssey.Rtl.RangeList
import Odyssey.Rtl.Time
import Odyssey.Rtl.GenericTable
import Odyssey.Rtl.ShortNameFresh
import Odyssey.Rtl.ShortNameLegal
import Odyssey.Rtl.PrefixNext
import Odyssey.Se.MaximumAllowed
import Odyssey.Se.AclWalk
import Odyssey.Ip.ReassemblyRuns
import Odyssey.Fastfat.FreeClusters
import Odyssey.Fastfat.DirEntrySafety
import Odyssey.Npfs.ByteStreamRuns
import Odyssey.Npfs.MessageRuns
