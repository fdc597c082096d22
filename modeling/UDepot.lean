import UDepot.Lib.Scan
import UDepot.Lib.Sums
import UDepot.Lib.Bytes
import UDepot.Lib.Visit
import UDepot.Map
import UDepot.Lookup
import UDepot.Shift
import UDepot.MapRun
import UDepot.Directory
import UDepot.Grow
import UDepot.GrowLive
import UDepot.ShiftLive
import UDepot.Record
import UDepot.Store
import UDepot.StoreInv
import UDepot.StoreLookup
import UDepot.StoreStep
import UDepot.StoreSlot
import UDepot.StoreOps
import UDepot.StorePut
import UDepot.LocalPut
import UDepot.StoreGrow
import UDepot.StoreDel
import UDepot.Refine
import UDepot.Account
import UDepot.AccountOps
import UDepot.AccountRun
import UDepot.Gc
import UDepot.Lib.Elect
import UDepot.Recovery
import UDepot.RecoveryMap
import UDepot.RecoveryRun
import UDepot.RecoveryOrder
import UDepot.RecoveryDeleted
import UDepot.Locks
import UDepot.Net
import UDepot.Allocator
import UDepot.AllocatorRun
import UDepot.Timestamps
import UDepot.RecoveryGrow
import UDepot.FailedPut
import UDepot.Lib.Places
import UDepot.Restart
import UDepot.RestartDevice
import UDepot.RestartTrip
import UDepot.Lib.Boxes
import UDepot.Mbuff
import UDepot.PutBuild
import UDepot.Lib.Numerals
import UDepot.MbuffCopy
import UDepot.MbuffStore
import UDepot.McGet
import UDepot.Mmap
import UDepot.RestoreDir
import UDepot.DeviceMd
import UDepot.KvSafe
import UDepot.MbuffRun
import UDepot.TornRecord
import UDepot.Lib.Phases
import UDepot.McAtomic
import UDepot.Absent
import UDepot.DirSpread
import UDepot.GcBase
import UDepot.RestoreMaps
import UDepot.Search
import UDepot.ShiftKeeps
import UDepot.CapacityPromise
import UDepot.GrainLimit
import UDepot.RestoreFail
import UDepot.CtlrInit
import UDepot.CtlrProps
import UDepot.GcBins
import UDepot.Layout
import UDepot.Provision
import UDepot.SegSearch
import UDepot.Lib.Chunks
import UDepot.MbuffCompare
import UDepot.MbuffHash
import UDepot.McArgs
import UDepot.McArith
import UDepot.McExpiry
import UDepot.StreamMap
import UDepot.Stripe
import UDepot.FreeSegRun
import UDepot.IoHelpers
import UDepot.Lifetime
