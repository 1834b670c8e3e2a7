import Leeos.KernelPoolExhaustion
import Leeos.KernelHeapAnswers
import Leeos.KernelPageContents
import Leeos.KernelLocks
import Leeos.KernelTlb
import Leeos.KernelAllocRaces
import Leeos.KernelAddressSpaces
import Leeos.DeviceIoqueue
import Leeos.FsBitmaps
import Leeos.KernelPoolLayout
import Leeos.FsFormat
import Leeos.FsPathSearch
import Leeos.KernelDirectoryRuns
import Leeos.FsDirOpens
import Leeos.FsInodeRaces
import Leeos.FsInodeSync
import Leeos.FsDirEntries
import Leeos.KernelPids
import Leeos.DeviceIde
import Leeos.UserprogProcesses
import Leeos.KernelBitmapScan
import Leeos.KernelPageWalks
import Leeos.UserprogExecute
import Leeos.FsDirSearch
import Leeos.FsDirBlocks
import Leeos.FsInodeRoundTrip
import Leeos.DeviceIdeTransfers
import Leeos.DevicePartitionLinks
import Leeos.DeviceIoqueueRing
import Leeos.KernelLists
import Leeos.DeviceKeyboard
import Leeos.LibStdioBuffers
import Leeos.FsPathDepth
import Leeos.DevicePartitionBuffers
import Leeos.DevicePartitionDisks
import Leeos.DeviceTimer
import Leeos.KernelTimeSlices
import Leeos.BootMemorySize
import Leeos.FsPathSplits
import Leeos.KernelPutInt
import Leeos.KernelContextRuns
import Leeos.DeviceConsole
import Leeos.KernelReadyWaits
import Leeos.KernelDescriptors
import Leeos.FsRestarts
import Leeos.KernelInterrupts
