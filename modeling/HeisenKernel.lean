import HeisenKernel.Controls
import HeisenKernel.Cstring
import HeisenKernel.Debugger
import HeisenKernel.Fat.Allocate
import HeisenKernel.Fat.RoundTrip
import HeisenKernel.Fat.ShortNames
import HeisenKernel.Fat.Tree
import HeisenKernel.Fat.Walks
import HeisenKernel.Gui.Contexts
import HeisenKernel.Gui.Redraw
import HeisenKernel.Imaging.Codes
import HeisenKernel.Imaging.Convert
import HeisenKernel.Input.KeyPackets
import HeisenKernel.Input.UsbKeyboard
import HeisenKernel.Installer.Layout
import HeisenKernel.Iso9660.Works
import HeisenKernel.KernelHeap.Aligned
import HeisenKernel.KernelHeap.Conserve
import HeisenKernel.Kheap
import HeisenKernel.Libc
import HeisenKernel.Listings.DirectoryListing
import HeisenKernel.MemoryRanges
import HeisenKernel.Socket
import HeisenKernel.Tasking.Receive
import HeisenKernel.Tasking.Sleep
import HeisenKernel.TerminalControl
import HeisenKernel.Threading
import HeisenKernel.Usb.AsyncList
import HeisenKernel.Usb.Descriptors
import HeisenKernel.Usb.QueueChain
import HeisenKernel.UserHeap.Client
import HeisenKernel.Vfs
import HeisenKernel.VirtualMemory.Mapping
import HeisenKernel.VirtualMemory.Removal
import HeisenKernel.VirtualMemory.SharedMemory
import HeisenKernel.Vmm.Accounting
import HeisenKernel.Vmm.Blocks
