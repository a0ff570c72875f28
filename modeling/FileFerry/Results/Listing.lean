import FileFerry.Results.Protocol

/-!
# Results — Listing

A listing of either backend is a page of the files it stores, in the order of their names.

* `FsBackend.list_run`: the page a data root gives; `FsBackend.mem_files`, what its files are.
* `S3Backend.listPages_eq`: the loop over the pages of a server, of any sizes.
  `S3Backend.list_page`: the page of the bucket it gives.
* `listings_agree`: a bucket and a data root with the same files are listed alike.
-/

namespace FileFerry
open Text Posix AsyncIo Steps Window

/-- Entries are ordered by the bytes of their names. -/
def FileEntry.key (e : FileEntry) : List UInt8 := bytes e.name

/-- What both backends report of a file. -/
def FileEntry.nameSize (e : FileEntry) : String × Nat := (e.name, e.size)

/-- Names and sizes, by the bytes of the names. -/
def pairKey (p : String × Nat) : List UInt8 := bytes p.1

/-! ### The data root -/

namespace FsBackend

variable {fs : FsBackend} {h : Host} {r : Loc} {x : Name}

/-- The entry of a regular file. -/
def fileEntry (x : Name) (f : File) : FileEntry where
  name := toStringLossy x
  size := f.content.length
  lastModified := if 0 ≤ f.modified then some (formatRfc3339 f.modified.toNat) else none

/-- The files of the directory at `r`, by their names. -/
def files (fs : FsBackend) (h : Host) (r : Loc) : List FileEntry :=
  ((h.tree.readDir r).filterMap (fs.entry h)).insertionSort fun a b => bytes a.name ≤ bytes b.name

theorem isAbsolute_singleton (x : Name) : isAbsolute [x] = false := by cases x <;> rfl

/-- **An entry of the root** is where its name leads, unless that is too long. -/
theorem lookup_child (hroot : Rooted fs h r) (hx : Named x) (hs : slash ∉ x) :
    h.lookup false (join fs.root [x]) = reach (x :: r) := by
  have hb : Below h (join fs.root [x]) r [x] :=
    below_join hroot (by simp) (by simpa [Clean] using .inr hx) (by simpa [SlashFree] using hs)
      (isAbsolute_singleton x)
  obtain ⟨m, hm⟩ := hb.lookup (by simp)
  rw [hm]
  rcases link_or_not h.tree (x :: r) with ⟨target, ht⟩ | hn
  · rw [walk_link_last hroot.dir hx ht]
    rfl
  · rw [walk_name hroot.dir hx hn, walk_nil]
    rfl

theorem entry_eq_some (hroot : Rooted fs h r) (hx : h.tree.get (x :: r) ≠ none) {e : FileEntry} :
    fs.entry h x = some e ↔ ∃ f, h.tree.get (x :: r) = some (.file f) ∧ e = fileEntry x f := by
  obtain ⟨h₁, h₂, h₃, h₄, -⟩ := Tree.ordinary_of_get hx
  have hl := lookup_child hroot ⟨fun e => e.elim h₁ h₂, h₃⟩ h₄
  rw [reach_short (Tree.short_of_get hx)] at hl
  rw [entry, Host.lstat, hl]
  obtain ⟨n, hn⟩ := Option.ne_none_iff_exists'.mp hx
  simp only [bind, Except.bind, Host.nodeAt, hn]
  cases n with
  | file f => simp [fileEntry, eq_comm]
  | dir => simp
  | symlink target => simp

/-- **The files** are the regular files in the directory. -/
theorem mem_files (hroot : Rooted fs h r) {e : FileEntry} :
    e ∈ fs.files h r ↔ ∃ x f, h.tree.get (x :: r) = some (.file f) ∧ e = fileEntry x f := by
  rw [files, List.mem_insertionSort, List.mem_filterMap]
  constructor
  · rintro ⟨x, hx, he⟩
    obtain ⟨f, hf⟩ := (entry_eq_some hroot (Tree.mem_readDir.mp hx)).mp he
    exact ⟨x, f, hf⟩
  · rintro ⟨x, f, hf, he⟩
    have hx : h.tree.get (x :: r) ≠ none := by rw [hf]; simp
    exact ⟨x, Tree.mem_readDir.mpr hx, (entry_eq_some hroot hx).mpr ⟨f, hf, he⟩⟩

theorem files_sorted (fs : FsBackend) (h : Host) (r : Loc) :
    (fs.files h r).Pairwise fun a b => a.key ≤ b.key :=
  have : Std.Total fun a b : FileEntry => bytes a.name ≤ bytes b.name :=
    ⟨fun a b => le_total (bytes a.name) (bytes b.name)⟩
  have : IsTrans FileEntry fun a b => bytes a.name ≤ bytes b.name :=
    ⟨fun _ _ _ => le_trans⟩
  List.pairwise_insertionSort _ _

/-- The names of the regular files in the directory are UTF-8. -/
def Utf8Names (h : Host) (r : Loc) : Prop :=
  ∀ x f, h.tree.get (x :: r) = some (.file f) → ∃ s, x = bytes s

/-- **Where the names are UTF-8**, no two files have one name. -/
theorem files_ascending (hroot : Rooted fs h r) (hutf : Utf8Names h r) :
    Ascending FileEntry.key (fs.files h r) := by
  have hname : ∀ {x : Name} {e : FileEntry}, x ∈ h.tree.readDir r → fs.entry h x = some e →
      e.key = x := by
    intro x e hx he
    obtain ⟨f, hf, rfl⟩ := (entry_eq_some hroot (Tree.mem_readDir.mp hx)).mp he
    obtain ⟨s, rfl⟩ := hutf x f hf
    rw [FileEntry.key, fileEntry, toStringLossy_bytes]
  have hne : ((h.tree.readDir r).filterMap (fs.entry h)).Pairwise fun a b => a.key ≠ b.key := by
    refine List.pairwise_filterMap.mpr ((Tree.nodup_readDir h.tree r).imp_of_mem ?_)
    intro x y hx hy hxy a ha b hb hab
    exact hxy (by rw [← hname hx ha, ← hname hy hb, hab])
  have hperm : (fs.files h r).Pairwise fun a b => a.key ≠ b.key :=
    (List.perm_insertionSort _ _).symm.pairwise hne fun {_ _} hab => hab.symm
  exact ((files_sorted fs h r).and hperm).imp fun hab => lt_of_le_of_ne hab.1 hab.2

theorem readDir_root (hroot : Rooted fs h r) : h.readDir fs.root = .ok (h.tree.readDir r) := by
  rw [Host.readDir, hroot.lookup]
  simp only [hroot.dir]

/-- **A listing of a data root** is a page of its files. -/
theorem list_run {w : World} (hroot : Rooted fs w.host r) (opts : ListOptions) :
    fs.list opts w = ([⟨w, []⟩], .ok (page FileEntry.key (opts.limit.getD DEFAULT_LIST_LIMIT)
      (opts.startAfter.map bytes) (fs.files w.host r))) := by
  rw [list, await, Act.step_bind, id, Act.get_bind, readDir_root hroot]
  simp only [Act.pure_run, listing, page, files]
  congr 3
  refine List.filter_congr fun e _ => ?_
  cases opts.startAfter with
  | none => simp
  | some c => simp [FileEntry.key]

/-- The files by name and size. -/
def objects (fs : FsBackend) (h : Host) (r : Loc) : List (String × Nat) :=
  (fs.files h r).map FileEntry.nameSize

theorem mem_objects (hroot : Rooted fs h r) {p : String × Nat} :
    p ∈ fs.objects h r ↔ ∃ x f, h.tree.get (x :: r) = some (.file f) ∧
      p = (toStringLossy x, f.content.length) := by
  rw [objects, List.mem_map]
  constructor
  · rintro ⟨e, he, rfl⟩
    obtain ⟨x, f, hf, rfl⟩ := (mem_files hroot).mp he
    exact ⟨x, f, hf, rfl⟩
  · rintro ⟨x, f, hf, rfl⟩
    exact ⟨_, (mem_files hroot).mpr ⟨x, f, hf, rfl⟩, rfl⟩

/-- Without a data root, a listing fails. -/
theorem rooted_of_list {w : World} {opts : ListOptions} {es : List FileEntry}
    (hl : (fs.list opts w).2 = .ok es) : ∃ r, Rooted fs w.host r := by
  rw [list, await, Act.step_bind, id, Act.get_bind, Host.readDir] at hl
  rcases hr : w.host.lookup true fs.root with e | r
  · rw [hr] at hl; cases hl
  · rcases hd : w.host.tree.get r with _ | n
    · rw [hr] at hl; simp only [hd] at hl; cases hl
    · cases n with
      | dir => exact ⟨r, hr, hd⟩
      | file f => rw [hr] at hl; simp only [hd] at hl; cases hl
      | symlink target => rw [hr] at hl; simp only [hd] at hl; cases hl

end FsBackend

/-! ### The bucket -/

namespace S3Backend

variable {b : S3Backend} {limit : Nat}

theorem take_append_of_length_le {α : Type} {n : Nat} {l m : List α} (h : n ≤ (l.take n).length) :
    (l ++ m).take n = l.take n := by
  rw [List.length_take] at h
  rw [List.take_append_of_le_length (by omega)]

/-- **The inner loop** takes the entries there is room for. -/
theorem collect_eq : ∀ {contents : List S3Object} {out : List FileEntry}, out.length < limit →
    b.collect limit out contents = (out ++ contents.filterMap b.entry).take limit
  | [], out, h => by
      rw [List.filterMap_nil, List.append_nil, List.take_of_length_le h.le]; rfl
  | obj :: contents, out, h => by
      rcases hobj : b.entry obj with _ | e
      · simp only [collect, hobj, List.filterMap_cons]
        exact collect_eq h
      · have hlen : (out ++ [e]).length = out.length + 1 := by simp
        simp only [collect, hobj, List.filterMap_cons, hlen]
        rw [List.append_cons out e (contents.filterMap b.entry)]
        split
        · rw [List.take_append_of_le_length (by omega), List.take_of_length_le (by omega)]
        · exact collect_eq (by omega)

/-- **The outer loop** takes the entries there is room for, over all pages of one server. -/
theorem listPages_eq {answer : Endpoint} {startAfter : Option String} {req : ListObjectsV2Input}
    {objs : List S3Object} {k : Nat} {w : World} (hg : Gives answer req objs k) :
    ∀ {token : Option String} {out : List FileEntry} {n : Nat},
      b.listRequest startAfter token = req → k ≤ n → out.length < limit →
      (b.listPages limit startAfter (List.replicate n answer) token out w).2
        = .ok ((out ++ objs.filterMap b.entry).take limit) := by
  induction hg with
  | last ha ht =>
      intro token out n hreq hn h
      obtain ⟨n, rfl⟩ := Nat.exists_eq_add_of_le' hn
      rw [List.replicate_succ, listPages, await, Act.step_bind]
      simp only [hreq, ha, ht, or_true, if_true, collect_eq h]
      rfl
  | @more req resp next objs k ha ht hnext _ ih =>
      intro token out n hreq hn h
      obtain ⟨n, rfl⟩ := Nat.exists_eq_add_of_le' (Nat.le_of_add_left_le hn)
      rw [List.replicate_succ, listPages, await, Act.step_bind]
      simp only [hreq, ha, ht, hnext, Option.getD_some, Bool.true_eq_false, or_false, reduceCtorEq,
        if_false, collect_eq h]
      rw [List.filterMap_append, ← List.append_assoc]
      split
      · rename_i hfull
        rw [take_append_of_length_le hfull]
        rfl
      · rename_i hfull
        have hlen : (out ++ (resp.contents.getD []).filterMap b.entry).length ≤ limit := by
          rw [List.length_take] at hfull; omega
        rw [List.take_of_length_le hlen] at hfull ⊢
        refine ih ?_ (Nat.le_of_succ_le_succ hn) (by omega)
        rw [b.listRequest_behind startAfter token, hreq]

/-- What the server lists, as the bucket has it. -/
theorem entry_eq_some {bucket : Bucket} {obj : S3Object} (ho : obj.Stored bucket)
    {p : String × Nat} :
    (∃ e, b.entry obj = some e ∧ e.nameSize = p) ↔ obj.key = some (b.key p.1) ∧ p.1 ≠ "" ∧
      '/' ∉ p.1.toList ∧ ∃ c, bucket.lookup (b.key p.1) = some c ∧ c.length = p.2 := by
  obtain ⟨k, c, hk, hc, hsize⟩ := ho
  constructor
  · rintro ⟨e, he, rfl⟩
    have hkey := entry_key he
    rw [hk, Option.some.injEq] at hkey
    subst hkey
    simp only [entry, hk, stripPrefix_eq_some.mpr rfl] at he
    split at he
    · cases he
    · rename_i hn
      rw [not_or] at hn
      refine ⟨hk, hn.1, hn.2, c, hc, ?_⟩
      have hs : (obj.size.getD 0).toNat = e.size := congrArg FileEntry.size (Option.some.inj he)
      rwa [hsize] at hs
  · rintro ⟨hkey, hne, hslash, c', hc', hlen⟩
    rw [hk, Option.some.injEq] at hkey
    subst hkey
    rw [hc, Option.some.injEq] at hc'
    subst hc'
    have hn : ¬ (p.1 = "" ∨ '/' ∈ p.1.toList) := not_or.mpr ⟨hne, hslash⟩
    have he : b.entry obj = some ⟨p.1, (obj.size.getD 0).toNat, obj.lastModified.map
      fun t => t.getD ""⟩ := by
      simp only [entry, hk, stripPrefix_eq_some.mpr rfl, if_neg hn]
    refine ⟨_, he, ?_⟩
    rw [FileEntry.nameSize, hsize]
    exact Prod.ext rfl hlen

variable {bucket : Bucket} {startAfter : Option String} {objs : List S3Object}

theorem key_lt_key (b : S3Backend) (n n' : String) :
    bytes (b.key n) < bytes (b.key n') ↔ bytes n < bytes n' := by
  rw [key_eq, key_eq, bytes_append, bytes_append, append_lt_append_iff]

theorem key_injective (b : S3Backend) : Function.Injective b.key := fun n n' e => by
  have h : b.stripPrefix (b.key n) = some n := stripPrefix_eq_some.mpr rfl
  rw [e, stripPrefix_eq_some.mpr rfl] at h
  exact (Option.some.inj h).symm

theorem entries_ascending (ha : Answers bucket (b.asks startAfter) objs) :
    Ascending pairKey ((objs.filterMap b.entry).map FileEntry.nameSize) := by
  refine List.pairwise_map.mpr (List.pairwise_filterMap.mpr (ha.ascending.imp ?_))
  intro o o' hlt e he e' he'
  rw [S3Object.keyBytes, S3Object.keyBytes, entry_key he, entry_key he'] at hlt
  exact (b.key_lt_key _ _).mp hlt

/-- **The entries** are the objects right under the prefix, beyond the cursor. -/
theorem mem_entries (ha : Answers bucket (b.asks startAfter) objs) {p : String × Nat} :
    p ∈ (objs.filterMap b.entry).map FileEntry.nameSize ↔ (p.1 ≠ "" ∧ '/' ∉ p.1.toList ∧
      ∃ c, bucket.lookup (b.key p.1) = some c ∧ c.length = p.2) ∧
      Beyond (startAfter.map bytes) (pairKey p) := by
  have hbeyond : Beyond ((startAfter.map b.key).map bytes) (bytes (b.key p.1)) ↔
      Beyond (startAfter.map bytes) (pairKey p) := by
    cases startAfter with
    | none => simp
    | some c => simp [key_lt_key, pairKey]
  have hkeys := ha.keys (b.key p.1)
  have hbase : ((b.asks startAfter).keyPrefix.getD "").toList <+: (b.key p.1).toList := by
    have hget : (b.asks startAfter).keyPrefix.getD "" = b.base := by
      rw [asks]; split <;> simp [*]
    rw [hget, key_eq, String.toList_append]
    exact List.prefix_append _ _
  have hafter : (b.asks startAfter).startAfter = startAfter.map b.key := rfl
  rw [hafter, hbeyond] at hkeys
  rw [List.mem_map]
  constructor
  · rintro ⟨e, he, hp⟩
    obtain ⟨o, ho, hoe⟩ := List.mem_filterMap.mp he
    obtain ⟨hk, hne, hslash, hc⟩ := (entry_eq_some (ha.stored o ho)).mp ⟨e, hoe, hp⟩
    exact ⟨⟨hne, hslash, hc⟩, (hkeys.mp ⟨o, ho, hk⟩).2.2⟩
  · rintro ⟨⟨hne, hslash, c, hc, hlen⟩, hb⟩
    obtain ⟨o, ho, hk⟩ := hkeys.mpr ⟨by rw [hc]; simp, hbase, hb⟩
    obtain ⟨e, he, hp⟩ := (entry_eq_some (ha.stored o ho)).mpr ⟨hk, hne, hslash, c, hc, hlen⟩
    exact ⟨e, List.mem_filterMap.mpr ⟨o, ho, he⟩, hp⟩

/-- The objects right under the prefix, by name and size. -/
def objects (b : S3Backend) (bucket : Bucket) : List (String × Nat) :=
  ((answering bucket (b.asks none)).filterMap b.entry).map FileEntry.nameSize

theorem objects_ascending (b : S3Backend) (bucket : Bucket) :
    Ascending pairKey (b.objects bucket) := entries_ascending (answers_answering _ _)

theorem mem_objects {p : String × Nat} : p ∈ b.objects bucket ↔ p.1 ≠ "" ∧ '/' ∉ p.1.toList ∧
    ∃ c, bucket.lookup (b.key p.1) = some c ∧ c.length = p.2 := by
  rw [objects, mem_entries (answers_answering _ _)]
  simp

/-- **A listing of a bucket** is a page of its objects, however the server pages. -/
theorem list_page {env : Env} {opts : ListOptions} {w : World} (hlim : opts.limit ≠ some 0)
    (hserve : b.Serves bucket opts.startAfter env.server) :
    ∃ es, (b.list env opts w).2 = .ok es ∧ es.map FileEntry.nameSize
      = page pairKey (opts.limit.getD DEFAULT_LIST_LIMIT) (opts.startAfter.map bytes)
        (b.objects bucket) := by
  obtain ⟨answer, n, objs, k, hserver, hk, ha, hg⟩ := hserve
  have hpos : 0 < opts.limit.getD DEFAULT_LIST_LIMIT := by
    rcases h : opts.limit with _ | n
    · simp [DEFAULT_LIST_LIMIT]
    · exact Nat.pos_of_ne_zero fun e => hlim (by rw [h]; exact congrArg some e)
  refine ⟨_, (by rw [list, hserver]; exact listPages_eq hg (b.listRequest_first _) hk hpos), ?_⟩
  rw [List.nil_append, List.map_take, page]
  congr 1
  refine eq_of_mem_iff (entries_ascending ha) ((b.objects_ascending bucket).filter _) fun p => ?_
  rw [mem_entries ha, List.mem_filter, mem_objects, decide_eq_true_eq]

end S3Backend

namespace FsBackend

variable {fs : FsBackend} {r : Loc}

/-- **A listing of a data root** is a page of its files. -/
theorem list_page {w : World} (hroot : Rooted fs w.host r) (opts : ListOptions) :
    ∃ es, (fs.list opts w).2 = .ok es ∧ es.map FileEntry.nameSize
      = page pairKey (opts.limit.getD DEFAULT_LIST_LIMIT) (opts.startAfter.map bytes)
        (fs.objects w.host r) := by
  refine ⟨_, congrArg Prod.snd (list_run hroot opts), ?_⟩
  have hk : ∀ e : FileEntry, pairKey e.nameSize = e.key := fun _ => rfl
  exact page_map FileEntry.nameSize hk _ _ _

end FsBackend

/-- The regular files of the directory at `r` are the objects right under the prefix of `b`. -/
def SameFiles (h : Host) (r : Loc) (b : S3Backend) (bucket : Bucket) : Prop :=
  ∀ x n, (∃ f, h.tree.get (x :: r) = some (.file f) ∧ f.content.length = n) ↔
    ∃ name, x = bytes name ∧ name ≠ "" ∧ '/' ∉ name.toList ∧
      ∃ c, bucket.lookup (b.key name) = some c ∧ c.length = n

/-- The same files are the same objects. -/
theorem SameFiles.objects_eq {fs : FsBackend} {h : Host} {r : Loc} {b : S3Backend} {bucket : Bucket}
    (hs : SameFiles h r b bucket) (hroot : Rooted fs h r) : b.objects bucket = fs.objects h r := by
  have hutf : FsBackend.Utf8Names h r := fun x f hf => by
    obtain ⟨name, rfl, -⟩ := (hs x _).mp ⟨f, hf, rfl⟩
    exact ⟨name, rfl⟩
  have hfs : Ascending pairKey (fs.objects h r) :=
    List.pairwise_map.mpr ((FsBackend.files_ascending hroot hutf).imp id)
  refine eq_of_mem_iff (b.objects_ascending bucket) hfs fun p => ?_
  rw [S3Backend.mem_objects, FsBackend.mem_objects hroot]
  constructor
  · rintro ⟨hne, hslash, hc⟩
    obtain ⟨f, hf, hlen⟩ := (hs (bytes p.1) p.2).mpr ⟨p.1, rfl, hne, hslash, hc⟩
    exact ⟨_, f, hf, Prod.ext (toStringLossy_bytes p.1).symm hlen.symm⟩
  · rintro ⟨x, f, hf, rfl⟩
    obtain ⟨name, rfl, hne, hslash, hc⟩ := (hs x _).mp ⟨f, hf, rfl⟩
    rw [toStringLossy_bytes]
    exact ⟨hne, hslash, hc⟩

/-- **Both backends list alike**: a bucket, however the server pages, and a data root with the same
files give the same names and sizes. -/
theorem listings_agree {fs : FsBackend} {b : S3Backend} {r : Loc} {env : Env} {opts : ListOptions}
    {w : World} (hroot : Rooted fs w.host r) (hsame : SameFiles w.host r b w.bucket)
    (hserve : b.Serves w.bucket opts.startAfter env.server) (hlim : opts.limit ≠ some 0) :
    ∃ es es', (b.list env opts w).2 = .ok es ∧ (fs.list opts w).2 = .ok es' ∧
      es.map FileEntry.nameSize = es'.map FileEntry.nameSize := by
  obtain ⟨es, he, hpage⟩ := S3Backend.list_page (w := w) hlim hserve
  obtain ⟨es', he', hpage'⟩ := FsBackend.list_page hroot opts
  exact ⟨es, es', he, he', by rw [hpage, hpage', hsame.objects_eq hroot]⟩

/-! ### Two stores with the same files -/

/-- The files are in the data root, and in the bucket among others. -/
def storing (b : S3Backend) (others : Bucket) : List (String × List UInt8) → World
  | [] => { World.empty with host := dataHost, bucket := others }
  | (name, content) :: l =>
    { storing b others l with
      host := (storing b others l).host.put (bytes name) [bytes "data"] (.file ⟨content, 0⟩)
      bucket := (storing b others l).bucket.insert (b.key name) content }

theorem slash_mem_bytes {s : String} (h : '/' ∈ s.toList) : slash ∈ bytes s := by
  rw [bytes_eq_flatMap, List.mem_flatMap]
  exact ⟨'/', h, by decide⟩

/-- A file of the root is an object right under the prefix. -/
theorem storing_get {b : S3Backend} {others : Bucket}
    (hothers : ∀ name, others.lookup (b.key name) ≠ none → name = "" ∨ '/' ∈ name.toList) :
    ∀ l : List (String × List UInt8), (∀ p ∈ l, Ordinary (bytes p.1)) →
      (storing b others l).host.tree.get [bytes "data"] = some .dir ∧
      ∀ x n, (storing b others l).host.tree.get [x, bytes "data"] = some n ↔
        ∃ name c, x = bytes name ∧ name ≠ "" ∧ '/' ∉ name.toList ∧
          (storing b others l).bucket.lookup (b.key name) = some c ∧ n = .file ⟨c, 0⟩
  | [], _ => by
      have hdir : dataHost.tree.get [bytes "data"] = some .dir := by decide
      refine ⟨hdir, fun x n => ?_⟩
      have hnone : dataHost.tree.get [x, bytes "data"] = none := by
        rw [dataHost, Tree.get_put (by decide) (by decide) (by decide), if_neg (by simp)]
        rfl
      constructor
      · intro h
        rw [storing, hnone] at h
        cases h
      · rintro ⟨name, c, -, hne, hslash, hc, -⟩
        rcases hothers name (by rw [show others.lookup _ = some c from hc]; simp) with h | h
        · exact absurd h hne
        · exact absurd h hslash
  | (name, content) :: l, hl => by
      obtain ⟨hdir, hfiles⟩ := storing_get hothers l fun p hp => hl p (List.mem_cons_of_mem _ hp)
      have hx : Ordinary (bytes name) := hl _ List.mem_cons_self
      have hput := fun m =>
        @Tree.get_put (storing b others l).host.tree (bytes name) [bytes "data"] m
        (.file ⟨content, 0⟩) hx hdir fun h => by
          obtain ⟨_, _, -, -, -, -, e⟩ := (hfiles _ _).mp h
          cases e
      have hkeys : ∀ name', name' ≠ name → ((storing b others l).bucket.insert (b.key name)
          content).lookup (b.key name') = (storing b others l).bucket.lookup (b.key name') :=
        fun name' hne => AList.lookup_insert_ne fun e => hne (b.key_injective e)
      refine ⟨?_, fun x n => ?_⟩
      · rw [storing, Host.put_tree, hput, if_neg (by simp)]
        exact hdir
      · rw [storing, Host.put_tree, hput]
        by_cases hname : x = bytes name
        · subst hname
          rw [if_pos rfl]
          constructor
          · intro h
            obtain rfl := Option.some.inj h
            refine ⟨name, content, rfl, fun e => hx.1 (by rw [e]; rfl), fun h => hx.2.2.2.1 ?_,
              AList.lookup_insert _, rfl⟩
            exact slash_mem_bytes h
          · rintro ⟨name', c, e, -, -, hc, rfl⟩
            obtain rfl := bytes_injective e
            rw [AList.lookup_insert] at hc
            rw [Option.some.inj hc]
        · rw [if_neg fun e => hname (List.cons.inj e).1, hfiles]
          refine exists_congr fun name' => exists_congr fun c => and_congr_right fun e => ?_
          rw [hkeys name' fun h => hname (by rw [e, h])]

/-- The two stores have the same files. -/
theorem storing_same {b : S3Backend} {others : Bucket} {l : List (String × List UInt8)}
    (hothers : ∀ name, others.lookup (b.key name) ≠ none → name = "" ∨ '/' ∈ name.toList)
    (hl : ∀ p ∈ l, Ordinary (bytes p.1)) :
    SameFiles (storing b others l).host [bytes "data"] b (storing b others l).bucket := by
  have hget := (storing_get hothers l hl).2
  intro x n
  constructor
  · rintro ⟨f, hf, rfl⟩
    obtain ⟨name, c, hx, hne, hslash, hc, e⟩ := (hget x _).mp hf
    obtain rfl := Node.file.inj e
    exact ⟨name, hx, hne, hslash, c, hc, rfl⟩
  · rintro ⟨name, hx, hne, hslash, c, hc, rfl⟩
    exact ⟨⟨c, 0⟩, (hget x _).mpr ⟨name, c, hx, hne, hslash, hc, rfl⟩, rfl⟩

/-- A bucket backend with a prefix. -/
def ferryIn : S3Backend := ⟨"ferry", "in"⟩

/-- One object is deeper than the listings of `ferryIn` look. -/
def deeper : Bucket := .singleton "in/b/c" [9]

theorem deeper_apart (name : String) (h : deeper.lookup (ferryIn.key name) ≠ none) :
    name = "" ∨ '/' ∈ name.toList := by
  have hkey : ferryIn.key name = "in/b/c" := by
    by_contra hne
    refine h (AList.lookup_eq_none.mpr ?_)
    simpa [deeper, AList.mem_keys] using hne
  obtain rfl := ferryIn.key_injective (hkey.trans (by decide : "in/b/c" = ferryIn.key "b/c"))
  exact .inr (by decide)

/-- Three files. -/
def threeFiles : World := storing ferryIn deeper [("a", [1, 2, 3]), ("b", []), ("c", [4])]

/-- A server that says first that there is more, and then has one object on each page. -/
def lateServer (bucket : Bucket) : Endpoint := fun req =>
  match req.continuationToken with
  | none => .ok ⟨none, some true, some (req.startAfter.getD "")⟩
  | some _ => paged 0 bucket req

theorem lateServer_gives {bucket : Bucket} {req : ListObjectsV2Input}
    {objs : List S3Object} {n : Nat}
    (h : Gives (paged 0 bucket) req objs n) : ∀ token, req.continuationToken = some token →
      Gives (lateServer bucket) req objs n := by
  have hsame : ∀ {req : ListObjectsV2Input} {token : String}, req.continuationToken = some token →
      lateServer bucket req = paged 0 bucket req := fun htoken => by rw [lateServer, htoken]
  induction h with
  | last ha ht => exact fun token htoken => .last ((hsame htoken).trans ha) ht
  | more ha ht hn _ ih => exact fun token htoken => .more ((hsame htoken).trans ha) ht hn (ih _ rfl)

theorem lateServer_serves (cursor : String) : ∃ n, ferryIn.Serves threeFiles.bucket (some cursor)
    (List.replicate n (lateServer threeFiles.bucket)) := by
  have hobjs :
    answering threeFiles.bucket { ((ferryIn.asks (some cursor)).behind (ferryIn.key cursor))
      with startAfter := some (ferryIn.key cursor) }
        = answering threeFiles.bucket (ferryIn.asks (some cursor)) := rfl
  obtain ⟨n, -, hgives⟩ := paged_gives 0 threeFiles.bucket _
    ((ferryIn.asks (some cursor)).behind (ferryIn.key cursor)) _ le_rfl hobjs
  have hlate := @Gives.more (lateServer threeFiles.bucket) (ferryIn.asks (some cursor))
    ⟨none, some true, some (ferryIn.key cursor)⟩ _ _ _ rfl rfl rfl (lateServer_gives hgives _ rfl)
  exact ⟨n + 1, _, n + 1, _, n + 1, rfl, le_rfl, answers_answering _ _, hlate⟩

/-- Two files after a cursor, on pages of one object behind an empty one. -/
theorem listings_agree_late : ∃ n es es',
    (ferryIn.list { Env.calm with server := List.replicate n (lateServer threeFiles.bucket) }
        ⟨some 2, some "a"⟩ threeFiles).2 = .ok es ∧
      (dataFs.list ⟨some 2, some "a"⟩ threeFiles).2 = .ok es' ∧
      es.map FileEntry.nameSize = es'.map FileEntry.nameSize := by
  obtain ⟨n, hserve⟩ := lateServer_serves "a"
  exact ⟨n, listings_agree ⟨by decide, by decide⟩ (storing_same deeper_apart (by decide)) hserve
    (by simp)⟩

end FileFerry
