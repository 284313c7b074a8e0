import Xv6.Fs.Dir

/-!
# `find`

`find(path, filename)` walks the tree below `path` depth first: it opens `path`, prints it when it
is a file or a device whose last component is `filename`, and otherwise reads the directory's
entries, `stat`s each as `path/name`, descends into each directory other than `.` and `..` and
prints each file named `filename`. The tree is given as the objects `path` names (`Node`), each
directory with its entries in the order `read` returns them.

Every `open`, the one inside `stat` included, goes through `sys_open`, which copies the path with
`argstr(0, path, MAXPATH)` and fails when the path has no NUL within `MAXPATH` bytes, and through
`fdalloc`, which fails when the process has `NOFILE` descriptors open (`openOk`). Under both bounds
(`Fits`) and with no `/` in a name (`NamesOk`), `find` prints exactly the claimed paths, in order
(`outs_find`); a path of `MAXPATH` bytes or more is missed even though it fits `find`'s own
512-byte buffer.
-/

namespace Xv6.User.Find

open Xv6.Fs (dirsiz)

mutual

/-- An object below the search path, by the type `stat` reports; a directory with its entries. -/
inductive Node
  | file
  | device
  | dir (entries : List Entry)

/-- A directory entry: its inode number (`0` for a free slot), its name (the bytes of `de.name`
before a NUL) and what it names. The entries `.` and `..` name directories that `find` never
enters, which is all the model says of them. -/
inductive Entry
  | mk (inum : Nat) (name : List Char) (node : Node)

end

/-- A write of `find`: a line to standard output, or a message to fd 2. -/
inductive Msg
  | out (line : List Char)
  | err (line : List Char)

/-- The lines written to standard output. -/
def outs (ms : List Msg) : List (List Char) :=
  ms.filterMap fun
    | .out line => some line
    | .err _ => none

/-- `get_path_name(path)`: the bytes after the last `/`. -/
def getPathName (path : List Char) : List Char := (path.reverse.takeWhile (· != '/')).reverse

/-- `open(path, O_RDONLY)` with `nfd` descriptors open gets past `argstr(0, path, MAXPATH)` and
`fdalloc`. -/
def openOk (nfd : Nat) (path : List Char) : Bool := path.length < maxpath && nfd < nofile

mutual

/-- `find(path, filename)` on the object `t` that `path` names, with `nfd` descriptors open. -/
def find (filename : List Char) (nfd : Nat) (path : List Char) (t : Node) : List Msg :=
  if openOk nfd path then
    match t with
    | .file | .device => if getPathName path = filename then [.out path] else []
    | .dir es =>
      if path.length + 1 + dirsiz + 1 > 512 then ["find: path too long".toList].map .err
      else findEntries filename (nfd + 1) path es
  else [.err ("find: cannot open ".toList ++ path)]

/-- The `while (read(fd, &de, sizeof(de)) == sizeof(de))` loop over the entries of the directory
`path`, which is open. -/
def findEntries (filename : List Char) (nfd : Nat) (path : List Char) : List Entry → List Msg
  | [] => []
  | .mk inum name t :: es =>
    if inum = 0 then findEntries filename nfd path es
    else
      let buf := path ++ '/' :: name
      -- `stat(buf, &st)` opens `buf` while the directory is still open
      (if openOk nfd buf then
        match t with
        | .dir _ =>
          if getPathName buf ≠ ['.'] ∧ getPathName buf ≠ ['.', '.'] then find filename nfd buf t else []
        | .file => if getPathName buf = filename then [.out buf] else []
        | .device => []
      else [.err ("find: cannot stat ".toList ++ buf)]) ++ findEntries filename nfd path es

end

section Spec

mutual

/-- The paths `find` is meant to print for the object `t` that `path` names. -/
def claimed (filename path : List Char) : Node → List (List Char)
  | .dir es => claimedEntries filename path es
  | .file | .device => if getPathName path = filename then [path] else []

def claimedEntries (filename path : List Char) : List Entry → List (List Char)
  | [] => []
  | .mk inum name t :: es =>
    (if inum = 0 then []
    else
      match t with
      | .dir _ => if name = ['.'] ∨ name = ['.', '.'] then [] else claimed filename (path ++ '/' :: name) t
      | .file => if name = filename then [path ++ '/' :: name] else []
      | .device => []) ++ claimedEntries filename path es

end

mutual

/-- Every `open` that `find` makes at and below `path` has a descriptor free and a path shorter
than `MAXPATH`. -/
def Fits (nfd : Nat) (path : List Char) : Node → Prop
  | .dir es => openOk nfd path = true ∧ FitsEntries (nfd + 1) path es
  | .file | .device => openOk nfd path = true

def FitsEntries (nfd : Nat) (path : List Char) : List Entry → Prop
  | [] => True
  | .mk inum name t :: es => (inum ≠ 0 → Fits nfd (path ++ '/' :: name) t) ∧ FitsEntries nfd path es

end

mutual

/-- No name below holds a `/`, as `skipelem` and `mkfs` make them. -/
def NamesOk : Node → Prop
  | .dir es => NamesOkEntries es
  | .file | .device => True

def NamesOkEntries : List Entry → Prop
  | [] => True
  | .mk _ name t :: es => '/' ∉ name ∧ NamesOk t ∧ NamesOkEntries es

end

end Spec

theorem outs_append (ms ms' : List Msg) : outs (ms ++ ms') = outs ms ++ outs ms' :=
  List.filterMap_append

theorem getPathName_entry (path : List Char) {name : List Char} (h : '/' ∉ name) :
    getPathName (path ++ '/' :: name) = name := by
  have hall : ∀ c ∈ name.reverse, (c != '/') = true := by
    intro c hc
    rw [List.mem_reverse] at hc
    have hne : c ≠ '/' := fun heq => h (heq ▸ hc)
    simpa using hne
  rw [getPathName, List.reverse_append, List.reverse_cons, List.append_assoc, List.singleton_append,
    List.takeWhile_append_of_pos hall, List.takeWhile_cons_of_neg (by simp), List.append_nil, List.reverse_reverse]

theorem openOk_length {nfd : Nat} {path : List Char} (h : openOk nfd path = true) : path.length < maxpath := by
  rw [openOk, Bool.and_eq_true, decide_eq_true_eq] at h
  exact h.1

mutual

/-- When every `open` succeeds and no name holds a `/`, `find` prints exactly the claimed paths. -/
theorem outs_find (filename : List Char) (nfd : Nat) (path : List Char) :
    ∀ t, Fits nfd path t → NamesOk t → outs (find filename nfd path t) = claimed filename path t
  | .file, hfit, _ | .device, hfit, _ => by
    rw [Fits] at hfit
    rw [find, if_pos hfit, claimed]
    split_ifs <;> rfl
  | .dir es, hfit, hnames => by
    have hshort : ¬path.length + 1 + dirsiz + 1 > 512 := by
      have := openOk_length hfit.1
      simp only [dirsiz, maxpath] at this ⊢
      omega
    rw [find, if_pos hfit.1, if_neg hshort, claimed]
    exact outs_findEntries filename (nfd + 1) path es hfit.2 hnames

theorem outs_findEntries (filename : List Char) (nfd : Nat) (path : List Char) :
    ∀ es, FitsEntries nfd path es → NamesOkEntries es → outs (findEntries filename nfd path es) = claimedEntries filename path es
  | [], _, _ => rfl
  | .mk inum name t :: es, hfit, hnames => by
    have hrest := outs_findEntries filename nfd path es hfit.2 hnames.2.2
    rw [findEntries.eq_2, claimedEntries.eq_def]
    dsimp only
    by_cases hinum : inum = 0
    · rw [if_pos hinum, if_pos hinum, hrest, List.nil_append]
    have hsub := hfit.1 hinum
    have hname := getPathName_entry path hnames.1
    -- the `stat` of the entry succeeds, since the open of anything below it does
    have hstat : openOk nfd (path ++ '/' :: name) = true := by
      cases t with
      | dir _ => exact hsub.1
      | file => exact hsub
      | device => exact hsub
    rw [if_neg hinum, if_neg hinum, if_pos hstat, outs_append, hrest, hname]
    cases t with
    | dir es' =>
      simp only [ne_eq, ← not_or]
      split_ifs
      · rfl
      · exact congrArg (· ++ _) (outs_find filename nfd _ (.dir es') hsub hnames.2.1)
    | file =>
      split_ifs <;> rfl
    | device => rfl

end

/-- A tree `d + 1` directories deep below the search path, each with `.`, `..` and a subdirectory
whose name has `DIRSIZ` bytes; the last holds the file `x`. -/
def deep : Nat → Node
  | 0 => .dir [.mk 1 ['.'] (.dir []), .mk 1 ['.', '.'] (.dir []), .mk 2 ['x'] .file]
  | d + 1 => .dir [.mk 1 ['.'] (.dir []), .mk 1 ['.', '.'] (.dir []), .mk 2 (List.replicate 14 'd') (deep d)]

/-- `find a x` with `x` nine directories below `a`: the path `a/dddddddddddddd/.../x` has 138 bytes,
within `find`'s buffer, but the `stat` of the ninth directory, at 136 bytes, already fails, so
nothing is printed. -/
theorem find_misses_long_path :
    outs (find ['x'] 3 ['a'] (deep 9)) = [] ∧
      claimed ['x'] ['a'] (deep 9) = [['a'] ++ (List.replicate 9 ('/' :: List.replicate 14 'd')).flatten ++ ['/', 'x']] := by
  constructor
  · decide
  · decide

end Xv6.User.Find
