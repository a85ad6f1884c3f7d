import Loeux.Ext2.Super
import Loeux.Ext2.Links
import Loeux.Vfs.Covering
import Loeux.Vfs.BuildPath
import Loeux.Ext2.ReadErrors
import Loeux.Ext2.Sizes
import Loeux.Ext2.Sectors
import Loeux.Vfs.Owner
import Loeux.Vfs.Umount
import Loeux.Mm.Confined
import Loeux.Utils.HashmapTasks
import Loeux.Mm.PageHarts
import Loeux.User.MallocSizes
import Loeux.Lcc.Uses
import Loeux.Lcc.Expressions
import Loeux.Drivers.Tty
import Loeux.Drivers.Dirty
import Loeux.Drivers.DiskRuns
import Loeux.Fat32.Names
import Loeux.Fat32.Numbers
import Loeux.Fat32.Time
import Loeux.Drivers.Cursor
import Loeux.Drivers.Keyboard
import Loeux.Drivers.KeyPoll
import Loeux.Lcc.Jumps
import Loeux.Kernel.Printk
import Loeux.Lcc.Formats
import Loeux.User.Vim
import Loeux.Lcc.Globals
import Loeux.Utils.MemOps
