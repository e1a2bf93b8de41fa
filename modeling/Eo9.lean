import Eo9.Sched.Completion
import Eo9.DiskPart.Isolation
import Eo9.Eofs.OpenFiles
import Eo9.Eofs.Durability
import Eo9.Eosh.Forced
import Eo9.Eosh.RunKey
import Eo9.Eosh.Spelling
import Eo9.Eosh.Application
import Eo9.Component.Wiring
import Eo9.Component.BindRuns
import Eo9.Kernel.Served
import Eo9.Kernel.Interrupts
import Eo9.Kernel.Windows
import Eo9.Kernel.Teardown
import Eo9.Msd.Resync
import Eo9.Sectors.Faithful
import Eo9.StoreDisk.Survival
import Eo9.NetVirtio.Integrity
import Eo9.Wave.Grammar
import Eo9.Store.Lookups
import Eo9.Curl.Framing
import Eo9.Curl.Redirects
import Eo9.Ohci.Hostile
import Eo9.Dns.Answers
import Eo9.Kernel.DeviceTree
import Eo9.Fatwalk.Overwrite
import Eo9.Fatwalk.Hostile
import Eo9.Net.Isolation
import Eo9.Net.Wait
import Eo9.Net.Uplinks
import Eo9.Gate.Grants
import Eo9.Buffers.Linear
import Eo9.Overlay.Shadow
import Eo9.Text.Lines
import Eo9.Console.ReadLine
import Eo9.Gfx.Agreement
