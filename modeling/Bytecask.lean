import Bytecask.WriteGroup.Served
import Bytecask.Survival
import Bytecask.VacuumDamage
import Bytecask.Sql.Isolation
import Bytecask.MariaDb.Atomic
import Bytecask.MariaDb.Unique
import Bytecask.Flush.Role
import Bytecask.Scan.Cut
import Bytecask.Vacuum.Shrinks
import Bytecask.Vacuum.Reads
import Bytecask.Blind.Group
import Bytecask.Writev
import Bytecask.Sql.KeyRoundTrip
import Bytecask.Changes.Bookmarks
import Bytecask.Tree.Cursor
import Bytecask.Pg.Framer
import Bytecask.Sql.Sorter
