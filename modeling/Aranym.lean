import Aranym.Audio.Playback
import Aranym.Config.Paths
import Aranym.Cpu.Bitfields
import Aranym.Cpu.PageCheck
import Aranym.Cpu.PortableArithmetic
import Aranym.Cpu.Stacks
import Aranym.Dsp.Addresses
import Aranym.Dsp.Branches
import Aranym.Dsp.Division
import Aranym.Dsp.Duplex
import Aranym.Dsp.Products
import Aranym.Dsp.Repeats
import Aranym.Dsp.Rotates
import Aranym.Dsp.Scaling
import Aranym.Dsp.Status
import Aranym.Dsp.Vectors
import Aranym.HostFs.Confinement
import Aranym.HostFs.Getname
import Aranym.HostFs.Links
import Aranym.HostFs.Mapping
import Aranym.HostFs.Times
import Aranym.HostFs.Transfer
import Aranym.Ikbd.Commands
import Aranym.Ikbd.Motion
import Aranym.Ikbd.Status
import Aranym.Input.Keyboard
import Aranym.Jit.Checks
import Aranym.Mfp.Edges
import Aranym.Mfp.Ticks
import Aranym.Mmu.Crossing
import Aranym.Mmu.ErrorFrame
import Aranym.Mmu.Marks
import Aranym.Mmu.Protection
import Aranym.Mmu.Registers
import Aranym.Network.Ethernet
import Aranym.Scc.Masking
import Aranym.Screen.Dirty
import Aranym.Vdi.Expand
import Aranym.Vdi.Mouse
import Aranym.Vdi.Polygons
import Aranym.Vdi.ScreenBlits
import Aranym.Videl.Adler
import Aranym.Xhdi.Honesty
import Aranym.Xhdi.Sectors
