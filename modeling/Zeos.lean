import Zeos.Wakeups
import Zeos.Blocking
import Zeos.RoundRobin
import Zeos.CopyOnWrite
import Zeos.Removal
import Zeos.Attaching
import Zeos.ForkFailure
import Zeos.ForkCopies
import Zeos.FamilyTree
import Zeos.Pellets
import Zeos.Timers
import Zeos.Dispatch
import Zeos.ReadBounds
import Zeos.Cursor
import Zeos.Relatives
import Zeos.Draws
import Zeos.PrioritySearch
import Zeos.DepthSearch
import Zeos.Naming
import Zeos.Sleeping
import Zeos.Copies
import Zeos.Wrappers
import Zeos.PrivateMemory
import Zeos.Pages
import Zeos.Session
import Zeos.Display
