import FileFerry.Posix.Tree

/-!
# Posix — Walk

Path lookup.  A path is the list of its segments, the bytes between slashes, so `a//b/` is
`a`, the empty segment, `b`, the empty segment.  An empty segment is read like `.`: it stays
where it is, which must be a directory.  A trailing slash is then one more segment, and the rule
"a symbolic link before a slash is followed" is the rule for every segment but the last.

* `walk_append`: the walk of `a ++ b` is the walk of `b` from where `a` leads.
* `walk_thin`, `walk_thin_rev`: empty and `.` segments do not change where a walk to a directory
  leads.
* `walk_plain`: where no segment but the last is a link (`linkFree`), the walk goes to the
  location the names spell (`lexical`), or nowhere.
* `below_link`: below a link the tree holds nothing, so where a link is met before the last
  segment the location the names spell is not one a walk can arrive at.
* `reach`: where a walk ends, unless the last name is too long for a directory.
* `walk_linkless`: in a tree without links, what a walk comes to.
-/

namespace Posix

/-- The errors of the calls that are made. -/
inductive Errno where
  | enoent | eexist | enotdir | eisdir | enametoolong | eloop
  deriving DecidableEq

/-- The message of the C library, as `std::io::Error` prints it. -/
def Errno.display : Errno → String
  | .enoent => "No such file or directory (os error 2)"
  | .eexist => "File exists (os error 17)"
  | .enotdir => "Not a directory (os error 20)"
  | .eisdir => "Is a directory (os error 21)"
  | .enametoolong => "File name too long (os error 36)"
  | .eloop => "Too many levels of symbolic links (os error 40)"

/-- A segment that stays where it is. -/
def Stay (s : Name) : Prop := s = [] ∨ s = dot

instance (s : Name) : Decidable (Stay s) := inferInstanceAs (Decidable (_ ∨ _))

/-- The error at a location that holds nothing: a name that is too long is refused when it is
looked up in its directory, and is never found there. -/
def absent (l : Loc) : Errno := if Short l then .enoent else .enametoolong

/-- One pass over the segments, `jump` being what is done at a link. -/
def walkSegs (t : Tree) (follow : Bool) (jump : Loc → List Name → Except Errno Loc) :
    Loc → List Name → Except Errno Loc
  | cur, [] => .ok cur
  | cur, s :: rest =>
    match t.get cur with
    | some .dir =>
      if Stay s then walkSegs t follow jump cur rest
      else if s = dotdot then walkSegs t follow jump cur.tail rest
      else match t.get (s :: cur) with
        | some (.symlink target) =>
          if rest = [] ∧ follow = false then .ok (s :: cur)
          else jump (if target.head? = some slash then [] else cur)
            (target.splitOn slash ++ rest)
        | _ => walkSegs t follow jump (s :: cur) rest
    | some _ => .error .enotdir
    | none => .error (absent cur)

/-- The location `segs` leads to from `cur`, with at most `n` links followed; the last segment
is followed when it is a link only under `follow`, and need not exist. -/
def walk (t : Tree) (follow : Bool) : Nat → Loc → List Name → Except Errno Loc
  | 0 => walkSegs t follow fun _ _ => .error .eloop
  | n + 1 => walkSegs t follow (walk t follow n)

/-- The end of a walk: the location, unless its last name is too long for a directory. -/
def reach (l : Loc) : Except Errno Loc := if Short l then .ok l else .error .enametoolong

/-- What a walk does at a link, with `n` links left. -/
def jump (t : Tree) (follow : Bool) : Nat → Loc → List Name → Except Errno Loc
  | 0 => fun _ _ => .error .eloop
  | n + 1 => walk t follow n

variable {t : Tree} {f : Bool} {n : Nat} {cur r : Loc} {s : Name} {rest a b : List Name}

theorem walk_eq (t : Tree) (f : Bool) (n : Nat) : walk t f n = walkSegs t f (jump t f n) := by
  cases n <;> rfl

@[simp] theorem walk_nil : walk t f n cur [] = .ok cur := by rw [walk_eq, walkSegs]

/-- A segment that stays is passed over, in a directory. -/
theorem walk_stay (hd : t.get cur = some .dir) (hs : Stay s) :
    walk t f n cur (s :: rest) = walk t f n cur rest := by
  rw [walk_eq, walkSegs, hd]; simp only [if_pos hs]

/-- `..` goes to the parent; that of the root is the root. -/
theorem walk_up (hd : t.get cur = some .dir) :
    walk t f n cur (dotdot :: rest) = walk t f n cur.tail rest := by
  rw [walk_eq, walkSegs, hd]; rfl

/-- A segment that is a name. -/
def Named (s : Name) : Prop := ¬ Stay s ∧ s ≠ dotdot

instance (s : Name) : Decidable (Named s) := inferInstanceAs (Decidable (_ ∧ _))

/-- A name goes below, whatever is there, unless it is a link. -/
theorem walk_name (hd : t.get cur = some .dir) (hs : Named s)
    (hl : ∀ target, t.get (s :: cur) ≠ some (.symlink target)) :
    walk t f n cur (s :: rest) = walk t f n (s :: cur) rest := by
  rw [walk_eq, walkSegs, hd]
  simp only [if_neg hs.1, if_neg hs.2]

/-- A link at the end is not followed, if the call does not follow. -/
theorem walk_link_last (hd : t.get cur = some .dir) (hs : Named s) {target : List UInt8}
    (hl : t.get (s :: cur) = some (.symlink target)) :
    walk t false n cur [s] = .ok (s :: cur) := by
  rw [walk_eq, walkSegs, hd]
  simp only [if_neg hs.1, if_neg hs.2, hl, and_self, if_true]

/-- A link is followed, one fewer of those that may be. -/
theorem walk_link (hd : t.get cur = some .dir) (hs : Named s) {target : List UInt8}
    (hl : t.get (s :: cur) = some (.symlink target)) (hf : rest ≠ [] ∨ f = true) :
    walk t f n cur (s :: rest) = jump t f n (if target.head? = some slash then [] else cur)
      (target.splitOn slash ++ rest) := by
  have hn : ¬ (rest = [] ∧ f = false) := by
    rintro ⟨h₁, h₂⟩
    rcases hf with h | h
    · exact h h₁
    · simp [h] at h₂
  rw [walk_eq, walkSegs, hd]
  simp only [if_neg hs.1, if_neg hs.2, hl, if_neg hn]

/-- Nothing is below what is not a directory. -/
theorem walk_not_dir {m : Node} (hd : t.get cur = some m) (hm : m ≠ .dir) :
    walk t f n cur (s :: rest) = .error .enotdir := by
  rw [walk_eq, walkSegs, hd]
  cases m with
  | dir => exact absurd rfl hm
  | file _ => rfl
  | symlink _ => rfl

/-- …nor below nothing; what is told depends on the length of the names. -/
theorem walk_missing (hd : t.get cur = none) :
    walk t f n cur (s :: rest) = .error (absent cur) := by
  rw [walk_eq, walkSegs, hd]

theorem absent_short {l : Loc} (hs : Short l) : absent l = .enoent := if_pos hs

theorem absent_long {l : Loc} (hs : ¬ Short l) : absent l = .enametoolong := if_neg hs

/-- A walk that goes on starts from a directory. -/
theorem dir_of_walk (h : walk t f n cur (s :: rest) = .ok r) : t.get cur = some .dir := by
  rcases hd : t.get cur with _ | m
  · rw [walk_missing hd] at h; cases h
  · by_cases hm : m = .dir
    · rw [hm]
    · rw [walk_not_dir hd hm] at h; cases h

theorem reach_short {l : Loc} (hs : Short l) : reach l = .ok l := if_pos hs

theorem reach_long {l : Loc} (hs : ¬ Short l) : reach l = .error .enametoolong := if_neg hs

/-- What is reached was walked to, by names that are short. -/
theorem reach_ok {w : Except Errno Loc} {l : Loc} :
    (w >>= reach) = .ok l ↔ w = .ok l ∧ Short l := by
  rcases w with e | k
  · exact ⟨fun h => (by cases h), fun h => (by cases h.1)⟩
  · show reach k = _ ↔ _
    rw [reach]
    split
    · rename_i hs
      exact ⟨fun h => ⟨h, Except.ok.inj h ▸ hs⟩, fun h => h.1⟩
    · rename_i hs
      exact ⟨fun h => (by cases h), fun h => absurd (Except.ok.inj h.1 ▸ h.2) hs⟩

/-- The cases of one segment, at a directory. -/
theorem seg_cases (s : Name) : Stay s ∨ s = dotdot ∨ Named s := by
  by_cases h₁ : Stay s
  · exact .inl h₁
  · by_cases h₂ : s = dotdot
    · exact .inr (.inl h₂)
    · exact .inr (.inr ⟨h₁, h₂⟩)

/-- Whether an entry is a link. -/
theorem link_or_not (t : Tree) (l : Loc) :
    (∃ target, t.get l = some (.symlink target)) ∨ ∀ target, t.get l ≠ some (.symlink target) := by
  by_cases h : ∃ target, t.get l = some (.symlink target)
  · exact .inl h
  · exact .inr fun target e => h ⟨target, e⟩

/-! ### Walks that arrive -/

/-- `Walks t f n cur segs r`: how `walk t f n cur segs` arrives at `r`. -/
inductive Walks (t : Tree) (f : Bool) : Nat → Loc → List Name → Loc → Prop where
  | nil {n : Nat} {cur : Loc} : Walks t f n cur [] cur
  | stay {n : Nat} {cur : Loc} {s : Name} {rest : List Name} {r : Loc} :
      t.get cur = some .dir → Stay s → Walks t f n cur rest r →
      Walks t f n cur (s :: rest) r
  | up {n : Nat} {cur : Loc} {rest : List Name} {r : Loc} :
      t.get cur = some .dir → Walks t f n cur.tail rest r →
      Walks t f n cur (dotdot :: rest) r
  | name {n : Nat} {cur : Loc} {s : Name} {rest : List Name} {r : Loc} :
      t.get cur = some .dir → Named s →
      (∀ target, t.get (s :: cur) ≠ some (.symlink target)) → Walks t f n (s :: cur) rest r →
      Walks t f n cur (s :: rest) r
  | last {n : Nat} {cur : Loc} {s : Name} {target : List UInt8} :
      t.get cur = some .dir → Named s →
      t.get (s :: cur) = some (.symlink target) → f = false → Walks t f n cur [s] (s :: cur)
  | link {n : Nat} {cur : Loc} {s : Name} {rest : List Name} {r : Loc} {target : List UInt8} :
      t.get cur = some .dir → Named s →
      t.get (s :: cur) = some (.symlink target) → rest ≠ [] ∨ f = true →
      Walks t f n (if target.head? = some slash then [] else cur)
        (target.splitOn slash ++ rest) r →
      Walks t f (n + 1) cur (s :: rest) r

theorem walk_of_walks (h : Walks t f n cur a r) : walk t f n cur a = .ok r := by
  induction h with
  | nil => exact walk_nil
  | stay hd hs _ ih => rw [walk_stay hd hs, ih]
  | up hd _ ih => rw [walk_up hd, ih]
  | name hd hs hl _ ih => rw [walk_name hd hs hl, ih]
  | last hd hs hl hf => subst hf; exact walk_link_last hd hs hl
  | link hd hs hl hf _ ih => rw [walk_link hd hs hl hf]; exact ih

/-- One more link: what holds of the walks with `n` links left, carried over a segment list. -/
theorem walks_of_jump
    (hj : ∀ cur segs, jump t f n cur segs = .ok r → ∃ m, n = m + 1 ∧ Walks t f m cur segs r) :
    ∀ (a : List Name) (cur : Loc), walk t f n cur a = .ok r → Walks t f n cur a r
  | [], cur, h => by rw [walk_nil] at h; cases h; exact .nil
  | s :: a, cur, h => by
      have hd := dir_of_walk h
      rcases seg_cases s with hs | rfl | hs
      · rw [walk_stay hd hs] at h
        exact .stay hd hs (walks_of_jump hj a cur h)
      · rw [walk_up hd] at h
        exact .up hd (walks_of_jump hj a cur.tail h)
      · rcases link_or_not t (s :: cur) with ⟨target, hl⟩ | hl
        · by_cases hf : a ≠ [] ∨ f = true
          · rw [walk_link hd hs hl hf] at h
            obtain ⟨m, rfl, hw⟩ := hj _ _ h
            exact .link hd hs hl hf hw
          · push Not at hf
            obtain ⟨rfl, hf⟩ := hf
            obtain rfl : f = false := by simpa using hf
            rw [walk_link_last hd hs hl] at h
            cases h
            exact .last hd hs hl rfl
        · rw [walk_name hd hs hl] at h
          exact .name hd hs hl (walks_of_jump hj a (s :: cur) h)

theorem walks_of_walk : ∀ (n : Nat) (a : List Name) (cur : Loc),
    walk t f n cur a = .ok r → Walks t f n cur a r
  | 0 => walks_of_jump fun _ _ h => by cases h
  | n + 1 => walks_of_jump fun cur segs h => ⟨n, rfl, walks_of_walk n segs cur h⟩

/-- **A walk succeeds** exactly along a derivation of `Walks`. -/
theorem walk_ok_iff : walk t f n cur a = .ok r ↔ Walks t f n cur a r :=
  ⟨walks_of_walk n a cur, walk_of_walks⟩

/-! ### Appending and thinning -/

/-- **The walk of `a ++ b`** is the walk of `b` from where `a` leads, with the links `a` left. -/
theorem walk_append (h : walk t true n cur a = .ok r) :
    ∃ m, ∀ (f : Bool) (b : List Name), b ≠ [] →
      walk t f n cur (a ++ b) = walk t f m r b := by
  replace h := walk_ok_iff.mp h
  induction h with
  | nil => exact ⟨_, fun f b _ => rfl⟩
  | stay hd hs _ ih =>
      obtain ⟨m, e⟩ := ih
      exact ⟨m, fun f b hb => by rw [List.cons_append, walk_stay hd hs, e f b hb]⟩
  | up hd _ ih =>
      obtain ⟨m, e⟩ := ih
      exact ⟨m, fun f b hb => by rw [List.cons_append, walk_up hd, e f b hb]⟩
  | name hd hs hl _ ih =>
      obtain ⟨m, e⟩ := ih
      exact ⟨m, fun f b hb => by rw [List.cons_append, walk_name hd hs hl, e f b hb]⟩
  | last _ _ _ hf => cases hf
  | link hd hs hl hf _ ih =>
      obtain ⟨m, e⟩ := ih
      refine ⟨m, fun f b hb => ?_⟩
      rw [List.cons_append, walk_link hd hs hl (.inl (by simp [hb])), ← e f b hb,
        List.append_assoc]
      rfl

/-- `b` is `a` without some of the segments that stay where they are. -/
inductive Thin : List Name → List Name → Prop where
  | nil : Thin [] []
  | keep (s : Name) {a b : List Name} : Thin a b → Thin (s :: a) (s :: b)
  | drop {s : Name} {a b : List Name} : Stay s → Thin a b → Thin (s :: a) b

theorem Thin.refl : ∀ a, Thin a a
  | [] => .nil
  | s :: a => .keep s (Thin.refl a)

theorem Thin.append_left {a b : List Name} (h : Thin a b) : ∀ l, Thin (l ++ a) (l ++ b)
  | [] => h
  | s :: l => .keep s (h.append_left l)

theorem Thin.append {a b a' b' : List Name} (h : Thin a b) (h' : Thin a' b') :
    Thin (a ++ a') (b ++ b') := by
  induction h with
  | nil => exact h'
  | keep s _ ih => exact .keep s ih
  | drop hs _ ih => exact .drop hs ih

theorem Thin.filter : ∀ a : List Name, Thin a (a.filter fun s => ¬ Stay s)
  | [] => .nil
  | s :: a => by
      by_cases hs : Stay s
      · rw [List.filter_cons_of_neg (by simpa using hs)]; exact .drop hs (Thin.filter a)
      · rw [List.filter_cons_of_pos (by simpa using hs)]; exact .keep s (Thin.filter a)

/-- A walk arrives at the same place without the segments that stay where they are. -/
theorem walk_thin (h : walk t true n cur a = .ok r) (hb : Thin a b) :
    walk t true n cur b = .ok r := by
  replace h := walk_ok_iff.mp h
  induction h generalizing b with
  | nil => cases hb; exact walk_nil
  | stay hd hs _ ih =>
      cases hb with
      | keep _ hb => rw [walk_stay hd hs]; exact ih hb
      | drop _ hb => exact ih hb
  | up hd _ ih =>
      cases hb with
      | keep _ hb => rw [walk_up hd]; exact ih hb
      | drop hs _ => rcases hs with h | h <;> cases h
  | name hd hs hl _ ih =>
      cases hb with
      | keep _ hb => rw [walk_name hd hs hl]; exact ih hb
      | drop h _ => exact absurd h hs.1
  | last _ _ _ hf => cases hf
  | link hd hs hl hf _ ih =>
      cases hb with
      | keep _ hb => rw [walk_link hd hs hl (.inr rfl)]; exact ih (hb.append_left _)
      | drop h _ => exact absurd h hs.1

/-- …and with more of them, when it arrives at a directory. -/
theorem walk_thin_rev (h : walk t true n cur b = .ok r) (hr : t.get r = some .dir)
    (ha : Thin a b) : walk t true n cur a = .ok r := by
  replace h := walk_ok_iff.mp h
  induction h generalizing a with
  | @nil n cur =>
      generalize hb : ([] : List Name) = b at ha
      induction ha with
      | nil => exact walk_nil
      | keep => cases hb
      | drop hs _ ih => rw [walk_stay hr hs]; exact ih hb
  | @stay n cur s rest r hd hs _ ih =>
      generalize hb : s :: rest = b at ha
      induction ha with
      | nil => cases hb
      | keep _ ha => cases hb; rw [walk_stay hd hs]; exact ih hr ha
      | drop hs' _ ih' => rw [walk_stay hd hs']; exact ih' hb
  | @up n cur rest r hd _ ih =>
      generalize hb : dotdot :: rest = b at ha
      induction ha with
      | nil => cases hb
      | keep _ ha => cases hb; rw [walk_up hd]; exact ih hr ha
      | drop hs' _ ih' => rw [walk_stay hd hs']; exact ih' hb
  | @name n cur s rest r hd hs hl _ ih =>
      generalize hb : s :: rest = b at ha
      induction ha with
      | nil => cases hb
      | keep _ ha => cases hb; rw [walk_name hd hs hl]; exact ih hr ha
      | drop hs' _ ih' => rw [walk_stay hd hs']; exact ih' hb
  | last _ _ _ hf => cases hf
  | @link n cur s rest r target hd hs hl hf _ ih =>
      generalize hb : s :: rest = b at ha
      induction ha with
      | nil => cases hb
      | keep _ ha =>
          cases hb
          rw [walk_link hd hs hl (.inr rfl)]
          exact ih hr (ha.append_left _)
      | drop hs' _ ih' => rw [walk_stay hd hs']; exact ih' hb

/-! ### Walks without links -/

/-- The location the names in `segs` spell, from `cur`. -/
def lexical (cur : Loc) (segs : List Name) : Loc := (segs.filter fun s => ¬ Stay s).reverse ++ cur

@[simp] theorem lexical_nil : lexical cur [] = cur := rfl

theorem lexical_stay (hs : Stay s) : lexical cur (s :: rest) = lexical cur rest := by
  rw [lexical, List.filter_cons_of_neg (by simpa using hs), lexical]

theorem lexical_name (hs : ¬ Stay s) : lexical cur (s :: rest) = lexical (s :: cur) rest := by
  rw [lexical, List.filter_cons_of_pos (by simpa using hs), lexical]; simp

/-- A path is normalised part by part. -/
theorem lexical_append (a b : List Name) : lexical cur (a ++ b) = lexical (lexical cur a) b := by
  simp [lexical]

/-- A path is normalised to a place below the one it starts from. -/
theorem suffix_lexical (cur : Loc) (a : List Name) : cur <:+ lexical cur a :=
  List.suffix_append _ _

/-- Whether the walk along `segs` from `cur` meets no link before its last segment. -/
def linkFree (t : Tree) : Loc → List Name → Bool
  | _, [] => true
  | cur, s :: rest =>
    if Stay s then linkFree t cur rest
    else (rest.isEmpty || !(t.get (s :: cur)).any Node.isSymlink) && linkFree t (s :: cur) rest

/-- Only the links count. -/
theorem linkFree_congr {t t' : Tree}
    (h : ∀ l, (t'.get l).any Node.isSymlink = (t.get l).any Node.isSymlink) :
    ∀ {a : List Name} {cur : Loc}, linkFree t' cur a = linkFree t cur a
  | [], _ => rfl
  | s :: a, cur => by
      rw [linkFree, linkFree, h, linkFree_congr h, linkFree_congr h]

/-- The segments are names, or stay where they are. -/
def Clean (segs : List Name) : Prop := ∀ s ∈ segs, Stay s ∨ Named s

theorem Clean.head (h : Clean (s :: rest)) : Stay s ∨ Named s := h s List.mem_cons_self

theorem Clean.tail (h : Clean (s :: rest)) : Clean rest := fun x hx =>
    h x (List.mem_cons_of_mem _ hx)

theorem any_isSymlink_of_not {l : Loc} (h : ∀ target, t.get l ≠ some (.symlink target)) :
    (t.get l).any Node.isSymlink = false := by
  rcases e : t.get l with _ | m
  · rfl
  · cases m with
    | symlink target => exact absurd e (h target)
    | file _ => rfl
    | dir => rfl

theorem not_symlink_of_any {l : Loc} (h : (t.get l).any Node.isSymlink = false)
    (target : List UInt8) : t.get l ≠ some (.symlink target) := fun e => by
  rw [e] at h; cases h

/-- **A walk that meets no link** before its last segment goes where the names spell. -/
theorem walk_plain : ∀ {a : List Name} {cur : Loc}, Clean a → linkFree t cur a = true →
    walk t false n cur a = .ok r → r = lexical cur a
  | [], cur, _, _, h => by rw [walk_nil] at h; cases h; rfl
  | s :: a, cur, hc, hf, h => by
      have hd := dir_of_walk h
      rcases hc.head with hs | hs
      · rw [linkFree, if_pos hs] at hf
        rw [walk_stay hd hs] at h
        rw [lexical_stay hs]
        exact walk_plain hc.tail hf h
      · rw [linkFree, if_neg hs.1, Bool.and_eq_true, Bool.or_eq_true, List.isEmpty_iff,
          Bool.not_eq_true'] at hf
        obtain ⟨hl, hf⟩ := hf
        rw [lexical_name hs.1]
        rcases link_or_not t (s :: cur) with ⟨target, ht⟩ | hn
        · obtain rfl : a = [] := hl.resolve_right fun e => not_symlink_of_any e target ht
          rw [walk_link_last hd hs ht] at h
          cases h
          rfl
        · rw [walk_name hd hs hn] at h
          exact walk_plain hc.tail hf h

/-- Where a link is met before the last segment, and which. -/
theorem exists_link : ∀ {a : List Name} {cur : Loc}, linkFree t cur a = false →
    ∃ pre s rest target, a = pre ++ s :: rest ∧ ¬ Stay s ∧ rest ≠ [] ∧
      linkFree t cur (pre ++ [s]) = true ∧
      t.get (s :: lexical cur pre) = some (.symlink target)
  | [], _, h => by cases h
  | s :: a, cur, h => by
      by_cases hs : Stay s
      · rw [linkFree, if_pos hs] at h
        obtain ⟨pre, x, rest, target, rfl, hx, hr, hf, ht⟩ := exists_link h
        refine ⟨s :: pre, x, rest, target, rfl, hx, hr, ?_, by rwa [lexical_stay hs]⟩
        rw [List.cons_append, linkFree, if_pos hs]; exact hf
      · rcases link_or_not t (s :: cur) with ⟨target, ht⟩ | hn
        · have ha : a ≠ [] := by rintro rfl; simp [linkFree, hs] at h
          exact ⟨[], s, a, target, rfl, hs, ha, by simp [linkFree, hs], ht⟩
        · have hn' := any_isSymlink_of_not hn
          rw [linkFree, if_neg hs, hn', Bool.not_false, Bool.or_true, Bool.true_and] at h
          obtain ⟨pre, x, rest, target, rfl, hx, hr, hf, ht⟩ := exists_link h
          refine ⟨s :: pre, x, rest, target, rfl, hx, hr, ?_, by rwa [lexical_name hs]⟩
          rw [List.cons_append, linkFree, if_neg hs, hf, hn']
          simp

/-- **Nothing lies below a link.** -/
theorem below_link {k l : Loc} {target : List UInt8} (hk : t.get k = some (.symlink target))
    (hl : k <:+ l) (hne : l ≠ k) : t.get l = none ∧ t.get l.tail ≠ some .dir := by
  obtain ⟨m, rfl⟩ := hl
  match m with
  | [] => exact absurd rfl hne
  | x :: m =>
      have habove : t.get (m ++ k) ≠ some .dir := fun h => by
        match m with
        | [] => rw [List.nil_append, hk] at h; cases h
        | y :: m =>
            have := Tree.get_above (t := t) (x := y) (by rw [← List.cons_append, h]; simp)
              (List.suffix_append m k)
            rw [hk] at this; cases this
      refine ⟨?_, habove⟩
      by_contra h
      exact habove (Tree.get_parent (by simpa using h))

/-! ### Walks in a tree without links -/

/-- No link is at `r` or below. -/
def Linkless (t : Tree) (r : Loc) : Prop := ∀ l target, r <:+ l → t.get l ≠ some (.symlink target)

/-- A regular file comes before the end of the segments. -/
def Blocked (t : Tree) (cur : Loc) (a : List Name) : Prop :=
  ∃ b c f, a = b ++ c ∧ c ≠ [] ∧ t.get (lexical cur b) = some (.file f)

/-- A name that is too long comes to be looked up in a directory. -/
def TooLong (t : Tree) (cur : Loc) (a : List Name) : Prop :=
  ∃ b x c, a = b ++ x :: c ∧ nameMax < x.length ∧ t.get (lexical cur b) = some .dir

theorem not_blocked_nil : ¬ Blocked t cur [] := by
  rintro ⟨b, c, f, e, hc, -⟩
  exact hc (List.append_eq_nil_iff.mp e.symm).2

theorem lexical_cons (s : Name) (rest : List Name) :
    lexical cur (s :: rest) = lexical (lexical cur [s]) rest := lexical_append [s] rest

/-- Below a directory, what blocks the path comes after the first segment. -/
theorem blocked_cons (hd : t.get cur = some .dir) :
    Blocked t cur (s :: rest) ↔ Blocked t (lexical cur [s]) rest := by
  constructor
  · rintro ⟨b, c, f, e, hc, hf⟩
    rcases b with _ | ⟨x, b⟩
    · rw [lexical_nil, hd] at hf; cases hf
    · obtain ⟨rfl, rfl⟩ := List.cons.inj e
      exact ⟨b, c, f, rfl, hc, by rwa [← lexical_cons]⟩
  · rintro ⟨b, c, f, rfl, hc, hf⟩
    exact ⟨s :: b, c, f, rfl, hc, by rwa [lexical_cons]⟩

theorem not_tooLong_nil : ¬ TooLong t cur [] := by
  rintro ⟨b, x, c, e, -, -⟩
  simp at e

theorem Stay.length_le (hs : Stay s) : s.length ≤ nameMax := by
  rcases hs with rfl | rfl <;> decide

/-- Below a directory, a name that is too long is the first segment, or comes after it. -/
theorem tooLong_cons (hd : t.get cur = some .dir) :
    TooLong t cur (s :: rest) ↔ nameMax < s.length ∨ TooLong t (lexical cur [s]) rest := by
  constructor
  · rintro ⟨b, x, c, e, hx, hb⟩
    rcases b with _ | ⟨y, b⟩
    · obtain ⟨rfl, rfl⟩ := List.cons.inj e
      exact .inl hx
    · obtain ⟨rfl, rfl⟩ := List.cons.inj e
      exact .inr ⟨b, x, c, rfl, hx, by rwa [← lexical_cons]⟩
  · rintro (hs | ⟨b, x, c, rfl, hx, hb⟩)
    · exact ⟨[], s, rest, rfl, hs, hd⟩
    · exact ⟨s :: b, x, c, rfl, hx, by rwa [lexical_cons]⟩

/-- No name that is too long is among short ones. -/
theorem not_tooLong (ha : ∀ s ∈ a, s.length ≤ nameMax) : ¬ TooLong t cur a := by
  rintro ⟨b, x, c, rfl, hx, -⟩
  have := ha x (by simp)
  omega

/-- **A walk in a tree without links** is stopped by a regular file, or by a name that is too long,
goes where the names spell, or misses a directory. -/
theorem walk_linkless : ∀ {a : List Name} {cur : Loc}, Clean a → Linkless t cur → Short cur →
    (Blocked t cur a ∧ (walk t f n cur a >>= reach) = .error .enotdir) ∨
      (TooLong t cur a ∧ ¬ Blocked t cur a ∧
        (walk t f n cur a >>= reach) = .error .enametoolong) ∨
      (¬ Blocked t cur a ∧ ¬ TooLong t cur a ∧
        ((walk t f n cur a >>= reach) = .ok (lexical cur a) ∨
          (walk t f n cur a >>= reach) = .error .enoent ∧ t.get (lexical cur a) = none))
  | [], _, _, _, hs => .inr (.inr ⟨not_blocked_nil, not_tooLong_nil, .inl (by
      rw [walk_nil]
      exact reach_short hs)⟩)
  | s :: a, cur, hc, hl, hshort => by
      rcases hd : t.get cur with _ | m
      · have hnone : ∀ b, t.get (lexical cur b) = none := fun b =>
          Tree.get_below_none hd (suffix_lexical cur b)
        refine .inr (.inr ⟨?_, ?_, .inr ⟨?_, hnone _⟩⟩)
        · rintro ⟨b, c, f, -, -, hf⟩
          rw [hnone] at hf; cases hf
        · rintro ⟨b, x, c, -, -, hb⟩
          rw [hnone] at hb; cases hb
        · rw [walk_missing hd, absent_short hshort]
          rfl
      · cases m with
        | symlink target => exact absurd hd (hl cur target (List.suffix_refl _))
        | file g =>
            refine .inl ⟨⟨[], s :: a, g, rfl, by simp, hd⟩, ?_⟩
            rw [walk_not_dir hd (by simp)]
            rfl
        | dir =>
            have hbelow : Linkless t (lexical cur [s]) := fun l target h =>
              hl l target ((suffix_lexical cur [s]).trans h)
            have hstep : walk t f n cur (s :: a) = walk t f n (lexical cur [s]) a := by
              rcases hc.head with hs | hs
              · rw [walk_stay hd hs, lexical_stay hs, lexical_nil]
              · rw [lexical_name hs.1, lexical_nil,
                  walk_name hd hs fun target => hl _ target (List.suffix_cons s cur)]
            rw [blocked_cons hd, tooLong_cons hd, hstep, lexical_cons s a]
            by_cases hs : nameMax < s.length
            · -- nothing is found in the directory, and the walk ends or stops there
              have hnamed : ¬ Stay s := fun h => absurd h.length_le (by omega)
              have hlex : lexical cur [s] = s :: cur := by rw [lexical_name hnamed, lexical_nil]
              have hns : ¬ Short (s :: cur) := fun h => absurd h (Nat.not_le.mpr hs)
              have hnone : t.get (s :: cur) = none := by
                by_contra h
                exact hns (Tree.short_of_get h)
              rw [hlex]
              refine .inr (.inl ⟨.inl hs, ?_, ?_⟩)
              · rintro ⟨b, c, f, -, -, hf⟩
                rw [Tree.get_below_none hnone (suffix_lexical _ b)] at hf
                cases hf
              · rcases a with _ | ⟨y, a⟩
                · rw [walk_nil]
                  exact reach_long hns
                · rw [walk_missing hnone, absent_long hns]
                  rfl
            · have hshort' : Short (lexical cur [s]) := by
                rcases hc.head with hst | hst
                · rwa [lexical_stay hst, lexical_nil]
                · rw [lexical_name hst.1, lexical_nil]
                  exact Nat.not_lt.mp hs
              simp only [hs, false_or]
              exact walk_linkless hc.tail hbelow hshort'

end Posix
