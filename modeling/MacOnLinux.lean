import MacOnLinux.Cpu.Breakpoints
import MacOnLinux.Dbdma.Acks
import MacOnLinux.Dbdma.Conditions
import MacOnLinux.Dbdma.Registers
import MacOnLinux.Disk.Blkdev
import MacOnLinux.Disk.Completion
import MacOnLinux.Disk.Cursor
import MacOnLinux.Disk.History
import MacOnLinux.Disk.Scatter
import MacOnLinux.Disk.Transfer
import MacOnLinux.Disk.Units
import MacOnLinux.Drivers.Enet2
import MacOnLinux.Drivers.HostIrq
import MacOnLinux.Drivers.Ioports
import MacOnLinux.Drivers.Keycodes
import MacOnLinux.Drivers.MacEnet
import MacOnLinux.Drivers.Pci
import MacOnLinux.Drivers.PicShared
import MacOnLinux.Fb.Damage
import MacOnLinux.Guest.Sprs
import MacOnLinux.Kv.Bat
import MacOnLinux.Kv.IoSlots
import MacOnLinux.Kv.Tracking
import MacOnLinux.Main.Aevents
import MacOnLinux.Main.Dispatch
import MacOnLinux.Mmu.Partial
import MacOnLinux.Mmu.Reclaim
import MacOnLinux.Mmu.Sessions
import MacOnLinux.Prom.RoundTrip
import MacOnLinux.Qcow.Images
import MacOnLinux.Res.Blocks
import MacOnLinux.Res.Expand
import MacOnLinux.Timer.Phase
import MacOnLinux.Usb.Buffers
import MacOnLinux.Usb.Hub
import MacOnLinux.Usb.Line
