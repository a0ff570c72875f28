import FileFerry.Posix.Path

/-!
# Posix — Calls

The system calls on paths, over a `Host`: its file tree, the working directory of the process,
and the time the kernel stamps on files.  `lstat`, `openRead` and `openWrite` examine the last
segment without following it; every earlier link is followed, and so is one before a trailing
slash.

* `Host.lookup_eq_ok`: a lookup that arrives is a walk that arrives, at a name not too long.
* `arrives`: where a walk arrives there is a node, or a place for one.
* `Host.openWrite_eq`: an open for writing, where the lookup arrives.
* `createDirAll` is `std::fs::create_dir_all`.  `createDirAll_made`, `createDirAll_spec`: the
  directories it makes.
-/

namespace Posix

structure Host where
  tree : Tree
  cwd : Loc
  now : Int

/-- How many links a lookup follows at most. -/
def maxSymlinks : Nat := 40

/-- The segments before the last name of the path, and the slash after them. -/
def Path.directory (p : Path) : Path := (p.rdropWhile fun s => s = []).dropLast ++ [[]]

namespace Host

def start (h : Host) (p : Path) : Loc := if isAbsolute p then [] else h.cwd

/-- The location `p` leads to; its last segment need not exist.  The process may search and read
everything, and `p` is shorter than `PATH_MAX` and holds no zero byte: the errors for what is not
so are left out. -/
def lookup (h : Host) (follow : Bool) (p : Path) : Except Errno Loc :=
  if p = [[]] then .error .enoent else walk h.tree follow maxSymlinks (h.start p) p >>= reach

def nodeAt (h : Host) (l : Loc) : Except Errno Node :=
  match h.tree.get l with
  | some n => .ok n
  | none => .error .enoent

/-- `lstat(2)`. -/
def lstat (h : Host) (p : Path) : Except Errno Node := h.lookup false p >>= h.nodeAt

/-- `stat(2)`. -/
def stat (h : Host) (p : Path) : Except Errno Node := h.lookup true p >>= h.nodeAt

/-- `Path::is_dir`. -/
def isDir (h : Host) (p : Path) : Bool :=
  match h.stat p with
  | .ok .dir => true
  | _ => false

/-- `Path::canonicalize`. -/
def canonicalize (h : Host) (p : Path) : Except Errno Path := do
  let l ← h.lookup true p
  let _ ← h.nodeAt l
  return ofComponents (.rootDir :: l.reverse.map .normal)

/-- `opendir(3)` and `readdir(3)`: the names in a directory. -/
def readDir (h : Host) (p : Path) : Except Errno (List Name) :=
  match h.lookup true p with
  | .error e => .error e
  | .ok l =>
    match h.tree.get l with
    | some .dir => .ok (h.tree.readDir l)
    | some _ => .error .enotdir
    | none => .error .enoent

def put (h : Host) (x : Name) (l : Loc) (n : Node) : Host :=
  { h with tree := h.tree.put x l n }

/-- `mkdir(2)`: the new directory, and the host with it. -/
def mkdir (h : Host) (p : Path) : Except Errno (Loc × Host) :=
  match h.lookup false p with
  | .error e => .error e
  | .ok l =>
    match h.tree.get l, l with
    | none, x :: m => .ok (l, h.put x m .dir)
    | _, _ => .error .eexist

/-- `open(2)` with `O_RDONLY | O_NOFOLLOW`: the entry opened. -/
def openRead (h : Host) (p : Path) : Except Errno Loc :=
  match h.lookup false p with
  | .error e => .error e
  | .ok l =>
    match h.tree.get l with
    | none => .error .enoent
    | some (.symlink _) => .error .eloop
    | some _ => .ok l

/-- `open(2)` of the entry at `l` with `O_WRONLY | O_CREAT | O_TRUNC | O_NOFOLLOW`: the file opened,
and the host where it is empty. -/
def create (h : Host) (l : Loc) : Except Errno (Loc × Host) :=
  match h.tree.get l, l with
  | some .dir, _ => .error .eisdir
  | some (.symlink _), _ => .error .eloop
  | some (.file _), x :: m => .ok (l, h.put x m (.file ⟨[], h.now⟩))
  | none, x :: m => .ok (l, h.put x m (.file ⟨[], h.now⟩))
  | _, [] => .error .eisdir

/-- The same of the entry `p` names.  `O_CREAT` refuses a slash after the last name, once the
segments before it have led to a directory. -/
def openWrite (h : Host) (p : Path) : Except Errno (Loc × Host) :=
  if p.getLast? = some [] ∧ p ≠ [[]] then
    match walk h.tree true maxSymlinks (h.start p) p.directory with
    | .error e => .error e
    | .ok _ => .error .eisdir
  else match h.lookup false p with
    | .error e => .error e
    | .ok l => h.create l

/-- The bytes `old` with `new` written at `off`, zeros filling what lies between. -/
def overwrite (old : List UInt8) (off : Nat) (new : List UInt8) : List UInt8 :=
  (old ++ List.replicate (off - old.length) 0).take off ++ new ++ old.drop (off + new.length)

/-- `write(2)` through a handle on the file at `l`, whose offset is `off`; writing no bytes does
nothing. -/
def writeAt (h : Host) (l : Loc) (off : Nat) (b : List UInt8) : Host :=
  match h.tree.get l, l with
  | some (.file f), x :: m =>
    if b = [] then h else h.put x m (.file ⟨overwrite f.content off b, h.now⟩)
  | _, _ => h

/-- `read(2)` through a handle on the file at `l`, whose offset is `off`: at most `len` bytes. -/
def readAt (h : Host) (l : Loc) (off len : Nat) : List UInt8 :=
  match h.tree.get l with
  | some (.file f) => (f.content.drop off).take len
  | _ => []

/-- `std::fs::create_dir_all` of the path with these components, innermost first: the directories
it made, the host after, and whether it succeeded. -/
def createDirAll (h : Host) : List Component → List Loc × Host × Except Errno Unit
  | [] => ([], h, .ok ())
  | c :: up =>
    let p := ofComponents (c :: up).reverse
    match h.mkdir p with
    | .ok (l, h') => ([l], h', .ok ())
    | .error .enoent =>
      match h.createDirAll up with
      | (made, h', .error e) => (made, h', .error e)
      | (made, h', .ok ()) =>
        match h'.mkdir p with
        | .ok (l, h'') => (made ++ [l], h'', .ok ())
        | .error e => (made, h', if h'.isDir p then .ok () else .error e)
    | .error e => ([], h, if h.isDir p then .ok () else .error e)

variable {h h' : Host} {p : Path} {l r : Loc} {x : Name}

@[simp] theorem put_tree (n : Node) : (h.put x l n).tree = h.tree.put x l n := rfl

/-! ### Lookups -/

theorem lookup_eq (hp : p ≠ [[]]) (f : Bool) :
    h.lookup f p = walk h.tree f maxSymlinks (h.start p) p >>= reach := by rw [lookup, if_neg hp]

theorem ne_of_lookup {f : Bool} (hl : h.lookup f p = .ok l) : p ≠ [[]] := fun e => by
  rw [lookup, if_pos e] at hl; cases hl

theorem lookup_eq_ok {f : Bool} (hp : p ≠ [[]]) :
    h.lookup f p = .ok l ↔ walk h.tree f maxSymlinks (h.start p) p = .ok l ∧ Short l := by
  rw [lookup_eq hp, reach_ok]

/-- A lookup that arrives is a walk that does. -/
theorem walk_of_lookup {f : Bool} (hl : h.lookup f p = .ok l) :
    walk h.tree f maxSymlinks (h.start p) p = .ok l :=
  ((lookup_eq_ok (ne_of_lookup hl)).mp hl).1

theorem short_of_lookup {f : Bool} (hl : h.lookup f p = .ok l) : Short l :=
  ((lookup_eq_ok (ne_of_lookup hl)).mp hl).2

/-- A walk to something that is there is a lookup of it. -/
theorem lookup_of_walk {f : Bool} (hp : p ≠ [[]]) (hg : h.tree.get l ≠ none)
    (hw : walk h.tree f maxSymlinks (h.start p) p = .ok l) : h.lookup f p = .ok l :=
  (lookup_eq_ok hp).mpr ⟨hw, Tree.short_of_get hg⟩

end Host

variable {t : Tree} {f : Bool} {n : Nat} {cur r : Loc} {a : List Name}

/-- Where a walk arrives there is a node, or an unused name in a directory. -/
theorem arrives (h : walk t f n cur a = .ok r) (hs : Short r) (hc : t.get cur = some .dir)
    (ha : SlashFree a) : t.get r ≠ none ∨ ∃ x m, r = x :: m ∧ Ordinary x ∧ t.get m = some .dir := by
  replace h := walk_ok_iff.mp h
  induction h with
  | nil => exact .inl (by rw [hc]; simp)
  | stay _ _ _ ih => exact ih hs hc fun s hs => ha s (List.mem_cons_of_mem _ hs)
  | @up n cur rest r _ _ ih =>
      refine ih hs ?_ fun s hs => ha s (List.mem_cons_of_mem _ hs)
      cases cur with
      | nil => exact hc
      | cons x l => exact Tree.get_parent (show t.get (x :: l) ≠ none by rw [hc]; simp)
  | @name n cur s rest r _ hn _ hw ih =>
      cases rest with
      | nil =>
          cases hw
          by_cases e : t.get (s :: cur) = none
          · exact .inr ⟨s, cur, rfl, ⟨fun e => hn.1 (.inl e), fun e => hn.1 (.inr e), hn.2,
              ha s List.mem_cons_self, hs⟩, hc⟩
          · exact .inl e
      | cons y rest =>
          exact ih hs (dir_of_walk (walk_of_walks hw)) fun s hs => ha s (List.mem_cons_of_mem _ hs)
  | last _ _ hl _ => exact .inl (by rw [hl]; simp)
  | @link n cur s rest r target _ _ _ _ _ ih =>
      refine ih hs ?_ ((slashFree_splitOn target).append
        fun s hs => ha s (List.mem_cons_of_mem _ hs))
      split
      · exact t.get_top
      · exact hc

/-- Following the last segment arrives where not following it does, unless a link is there. -/
theorem walk_follow_of (h : walk t false n cur a = .ok r)
    (hr : ∀ target, t.get r ≠ some (.symlink target)) : walk t true n cur a = .ok r := by
  replace h := walk_ok_iff.mp h
  induction h with
  | nil => exact walk_nil
  | stay hd hs _ ih => rw [walk_stay hd hs]; exact ih hr
  | up hd _ ih => rw [walk_up hd]; exact ih hr
  | name hd hs hl _ ih => rw [walk_name hd hs hl]; exact ih hr
  | last _ _ hl _ => exact absurd hl (hr _)
  | link hd hs hl hf _ ih => rw [walk_link hd hs hl (.inr rfl)]; exact ih hr

/-- Where following arrives at something, not following arrives at something. -/
theorem walk_nofollow_of (h : walk t true n cur a = .ok r) (hr : t.get r ≠ none) :
    ∃ r', walk t false n cur a = .ok r' ∧ t.get r' ≠ none := by
  replace h := walk_ok_iff.mp h
  induction h with
  | nil => exact ⟨_, walk_nil, hr⟩
  | stay hd hs _ ih => rw [walk_stay hd hs]; exact ih hr
  | up hd _ ih => rw [walk_up hd]; exact ih hr
  | name hd hs hl _ ih => rw [walk_name hd hs hl]; exact ih hr
  | last _ _ _ hf => cases hf
  | @link n cur s rest r target hd hs hl _ _ ih =>
      by_cases hrest : rest = []
      · subst hrest
        exact ⟨_, walk_link_last hd hs hl, by rw [hl]; simp⟩
      · rw [walk_link hd hs hl (.inl hrest)]
        exact ih hr

theorem cons_append_inj {α : Type} {x y : α} {a b c : List α} (h : x :: a ++ b = y :: c) :
    x = y ∧ a ++ b = c := List.cons.inj h

/-- A proper prefix of a path that arrives leads to a directory. -/
theorem walk_of_append {b : List Name} (hb : b ≠ []) : ∀ {n : Nat} {cur : Loc} {a : List Name},
    walk t f n cur (a ++ b) = .ok r →
      ∃ c, walk t true n cur a = .ok c ∧ t.get c = some .dir := by
  intro n cur a h
  replace h := walk_ok_iff.mp h
  generalize e : a ++ b = segs at h
  induction h generalizing a with
  | nil => exact absurd (List.append_eq_nil_iff.mp e).2 hb
  | @stay n cur s rest r hd hs hw ih =>
      rcases a with _ | ⟨y, a⟩
      · exact ⟨cur, walk_nil, hd⟩
      · obtain ⟨rfl, e'⟩ := cons_append_inj e
        rw [walk_stay hd hs]; exact ih e'
  | @up n cur rest r hd hw ih =>
      rcases a with _ | ⟨y, a⟩
      · exact ⟨cur, walk_nil, hd⟩
      · obtain ⟨rfl, e'⟩ := cons_append_inj e
        rw [walk_up hd]; exact ih e'
  | @name n cur s rest r hd hs hl hw ih =>
      rcases a with _ | ⟨y, a⟩
      · exact ⟨cur, walk_nil, hd⟩
      · obtain ⟨rfl, e'⟩ := cons_append_inj e
        rw [walk_name hd hs hl]; exact ih e'
  | @last n cur s target hd hs hl hf =>
      rcases a with _ | ⟨y, a⟩
      · exact ⟨cur, walk_nil, hd⟩
      · obtain ⟨-, e'⟩ := cons_append_inj e
        exact absurd (List.append_eq_nil_iff.mp e').2 hb
  | @link n cur s rest r target hd hs hl hf hw ih =>
      rcases a with _ | ⟨y, a⟩
      · exact ⟨cur, walk_nil, hd⟩
      · obtain ⟨rfl, e'⟩ := cons_append_inj e
        rw [walk_link hd hs hl (.inr rfl)]
        exact ih (by rw [List.append_assoc, e'])

/-! ### Opening for writing -/

/-- A path goes on after its directory. -/
theorem directory_append {p : Path} (ht : p.getLast? = some []) :
    ∃ b c, p.directory = b ++ [[]] ∧ p = b ++ c ∧ c ≠ [] := by
  have hsplit : p.rdropWhile (fun s => s = []) ++ p.rtakeWhile (fun s => s = []) = p :=
    List.rdropWhile_append_rtakeWhile
  rcases List.eq_nil_or_concat (p.rdropWhile fun s => s = []) with e | ⟨b, x, e⟩
  · refine ⟨[], p, by rw [Path.directory, e]; rfl, rfl, ?_⟩
    rintro rfl
    cases ht
  · rw [List.concat_eq_append] at e
    refine ⟨b, [x] ++ p.rtakeWhile fun s => s = [], ?_, ?_, by simp⟩
    · rw [Path.directory, e, List.dropLast_concat]
    · rw [← List.append_assoc, ← e, hsplit]

theorem directory_eq {q : Path} {x : Name} {c : List Name} (hx : x ≠ []) (hc : ∀ s ∈ c, s = []) :
    Path.directory (q ++ x :: c) = q ++ [[]] := by
  have hdrop : (q ++ x :: c).rdropWhile (fun s => s = []) = q ++ [x] := by
    rw [List.rdropWhile, List.reverse_append, List.reverse_cons, List.append_assoc,
      List.dropWhile_append_of_pos fun s hs => by simpa using hc s (List.mem_reverse.mp hs),
      List.singleton_append, List.dropWhile_cons_of_neg (by simpa using hx)]
    simp
  rw [Path.directory, hdrop, List.dropLast_concat]

/-- Where no lookup arrives, no open for writing succeeds. -/
theorem Host.openWrite_error {h : Host} {p : Path} {e : Errno} (hl : h.lookup false p = .error e) :
    ∃ e', h.openWrite p = .error e' := by
  rw [Host.openWrite, hl]
  split
  · split
    · exact ⟨_, rfl⟩
    · exact ⟨_, rfl⟩
  · exact ⟨_, rfl⟩

/-- **An open for writing**, where the lookup arrives: the slash at the end changes nothing. -/
theorem Host.openWrite_eq {h : Host} {p : Path} {l : Loc} (hl : h.lookup false p = .ok l) :
    h.openWrite p = h.create l := by
  have hne := Host.ne_of_lookup hl
  have hw := Host.walk_of_lookup hl
  rw [Host.openWrite]
  split
  · rename_i ht
    -- the path leads to a directory, and so do the segments before its last name
    obtain ⟨q, rfl⟩ := List.getLast?_eq_some_iff.mp ht.1
    obtain ⟨d, hd, hdir⟩ := walk_of_append (by simp) hw
    obtain ⟨m, hm⟩ := walk_append hd
    rw [hm false [[]] (by simp), walk_stay hdir (.inl rfl), walk_nil] at hw
    obtain rfl := Except.ok.inj hw
    obtain ⟨b, c, e, hp, hc⟩ := directory_append ht.1
    rw [hp] at hl
    obtain ⟨k, hk, hkdir⟩ := walk_of_append hc (Host.walk_of_lookup hl)
    obtain ⟨m', hm'⟩ := walk_append hk
    rw [e, hp, hm' true [[]] (by simp), walk_stay hkdir (.inl rfl), walk_nil]
    simp only [Host.create, hdir]
  · rw [hl]

end Posix
