import FileFerry.Results.Files

/-!
# Results — Keys

The keys of the bucket backend.  `key`, `strip_prefix` and `list` each spell out the rule for the
prefix; all three go through `S3Backend.base`, the `bucket_path` with its slash.

* `key_eq`, `stripPrefix_eq`, `listRequest_keys`: the three spellings are one.
* `listPages_entries`: an entry of a listing is named after the key of an object the server listed.
* `key_mapping`: a key is read back as its path, and two prefixes, neither of which begins the
  other, share no key.
-/

namespace FileFerry
open Text Posix AsyncIo Steps

namespace S3Backend

/-- The slash-terminated `bucket_path`; empty when the `bucket_path` is. -/
def base (b : S3Backend) : String :=
  if b.bucketPath = "" then ""
  else if b.bucketPath.toList.getLast? = some '/' then b.bucketPath
  else b.bucketPath ++ "/"

/-- A key is the prefix and the path. -/
theorem key_eq (b : S3Backend) (path : String) : b.key path = b.base ++ path := by
  rw [key, base]
  split
  · rw [String.empty_append]
  · split
    · rfl
    · rfl

theorem stripPrefix_eq (b : S3Backend) (k : String) :
    b.stripPrefix k = Text.stripPrefix b.base k := by
  rw [stripPrefix, base]
  split
  · exact (Text.stripPrefix_eq_some.mpr (String.empty_append).symm).symm
  · split
    · rfl
    · rfl

/-- **The prefix** of a path's key is the one that is stripped. -/
theorem stripPrefix_eq_some {b : S3Backend} {k path : String} :
    b.stripPrefix k = some path ↔ b.key path = k := by
  rw [stripPrefix_eq, Text.stripPrefix_eq_some, key_eq, eq_comm]

theorem base_eq_empty {b : S3Backend} : b.base = "" ↔ b.bucketPath = "" := by
  rw [base]
  split
  · simp [*]
  · split
    · simp [*]
    · simp [*]

theorem prefixArg_eq (b : S3Backend) : b.prefixArg = if b.base = "" then none else some b.base := by
  by_cases h : b.bucketPath = ""
  · simp [prefixArg, base, h]
  · rw [if_neg (base_eq_empty.not.mpr h), prefixArg, base, if_neg h, if_neg h]
    split
    · rfl
    · rfl

theorem startAfterKey_eq (b : S3Backend) (startAfter : Option String) :
    b.startAfterKey startAfter = startAfter.map b.key := by
  rw [startAfterKey, prefixArg_eq]
  congr 1
  funext name
  rw [key_eq]
  split
  · rename_i p hp
    split at hp
    · cases hp
    · rw [Option.some.inj hp]
  · rename_i hp
    split at hp
    · rename_i h; rw [h, String.empty_append]
    · cases hp

/-- **What a listing asks for**: the keys under the prefix of `key`, and at first those after the
key of the cursor. -/
theorem listRequest_keys (b : S3Backend) (startAfter token : Option String) :
    (b.listRequest startAfter token).keyPrefix = (if b.base = "" then none else some b.base) ∧
      (b.listRequest startAfter none).startAfter = startAfter.map b.key := by
  exact ⟨prefixArg_eq b, by rw [← startAfterKey_eq]; rfl⟩

/-! ### What a listing reports -/

/-- The server lists the object, in the answer to some request of the listing. -/
def Lists (b : S3Backend) (server : Server) (startAfter : Option String) (obj : S3Object) : Prop :=
  ∃ answer ∈ server, ∃ token resp,
    answer (b.listRequest startAfter token) = .ok resp ∧ obj ∈ resp.contents.getD []

/-- A listed name is the path whose key the object has. -/
theorem entry_key {b : S3Backend} {obj : S3Object} {e : FileEntry} (h : b.entry obj = some e) :
    obj.key = some (b.key e.name) := by
  rw [entry] at h
  rcases hk : obj.key with _ | k
  · rw [hk] at h; cases h
  · rcases hs : b.stripPrefix k with _ | name
    · simp only [hk, hs] at h; cases h
    · simp only [hk, hs] at h
      split at h
      · cases h
      · obtain rfl := Option.some.inj h
        rw [stripPrefix_eq_some.mp hs]

theorem mem_collect {b : S3Backend} {limit : Nat} {e : FileEntry} :
    ∀ {contents : List S3Object} {out : List FileEntry}, e ∈ b.collect limit out contents →
      e ∈ out ∨ ∃ obj ∈ contents, b.entry obj = some e
  | [], _, h => .inl h
  | obj :: contents, out, h => by
      have hrest : ∀ {out'}, e ∈ b.collect limit out' contents → (e ∈ out' →
          e ∈ out ∨ ∃ obj' ∈ obj :: contents, b.entry obj' = some e) →
          e ∈ out ∨ ∃ obj' ∈ obj :: contents, b.entry obj' = some e := by
        intro out' h' hout
        rcases mem_collect h' with hin | ⟨o, ho, he⟩
        · exact hout hin
        · exact .inr ⟨o, List.mem_cons_of_mem _ ho, he⟩
      rcases hobj : b.entry obj with _ | e'
      · simp only [collect, hobj] at h
        exact hrest h .inl
      · simp only [collect, hobj] at h
        have hnew : e ∈ out ++ [e'] →
            e ∈ out ∨ ∃ obj' ∈ obj :: contents, b.entry obj' = some e := fun hin => by
          rcases List.mem_append.mp hin with hin | hin
          · exact .inl hin
          · rw [List.mem_singleton.mp hin]
            exact .inr ⟨obj, List.mem_cons_self, hobj⟩
        split at h
        · exact hnew h
        · exact hrest h hnew

/-- **An entry of a listing** is made of an object the server lists, or was there before. -/
theorem listPages_entries {b : S3Backend} {limit : Nat} {startAfter : Option String}
    {e : FileEntry} :
    ∀ {server : Server} {token : Option String} {out entries : List FileEntry} {w : World},
      (b.listPages limit startAfter server token out w).2 = .ok entries → e ∈ entries →
        e ∈ out ∨ ∃ obj, b.Lists server startAfter obj ∧ b.entry obj = some e
  | [], _, _, _, w, h, _ => by
      rw [listPages, await, Act.step_bind] at h
      cases h
  | answer :: server, token, out, entries, w, h, he => by
      rw [listPages, await, Act.step_bind] at h
      rcases ha : answer (b.listRequest startAfter token) with x | resp
      · simp only [ha] at h; cases h
      · simp only [ha] at h
        have hpage : e ∈ b.collect limit out (resp.contents.getD []) →
            e ∈ out ∨ ∃ obj, b.Lists (answer :: server) startAfter obj ∧ b.entry obj = some e := by
          intro hin
          rcases mem_collect hin with hin | ⟨obj, ho, hobj⟩
          · exact .inl hin
          · exact .inr ⟨obj, ⟨answer, List.mem_cons_self, token, resp, ha, ho⟩, hobj⟩
        split at h
        · cases h; exact hpage he
        · split at h
          · cases h; exact hpage he
          · rcases listPages_entries h he with hin | ⟨obj, ⟨a, hm, ho⟩, hobj⟩
            · exact hpage hin
            · exact .inr ⟨obj, ⟨a, List.mem_cons_of_mem _ hm, ho⟩, hobj⟩

/-! ### Two prefixes -/

/-- Two prefixes of which neither begins the other. -/
structure Apart (b b' : S3Backend) : Prop where
  nonempty : b.base ≠ "" ∧ b'.base ≠ ""
  left : ¬ b.base.toList <+: b'.base.toList
  right : ¬ b'.base.toList <+: b.base.toList

/-- Backends that are apart share no key. -/
theorem Apart.key_ne {b b' : S3Backend} (h : Apart b b') (path path' : String) :
    b.key path ≠ b'.key path' := by
  intro e
  have hl := congrArg String.toList e
  rw [key_eq, key_eq, String.toList_append, String.toList_append] at hl
  rcases List.prefix_or_prefix_of_prefix (List.prefix_append _ _) (hl ▸ List.prefix_append _ _) with
    hp | hp
  · exact h.right hp
  · exact h.left hp

/-- The two worlds store the same under every key but those of `b`. -/
def SameBeside (b : S3Backend) (w w' : World) : Prop :=
  ∀ k, (∀ path, k ≠ b.key path) → w'.bucket.lookup k = w.bucket.lookup k

/-- What one of them reads does not depend on what is beside it. -/
theorem openRead_beside {b b' : S3Backend} (h : Apart b b') (env : Env)
    (path : String) {w w' : World}
    (hw : b.SameBeside w w') : (b'.openRead env path w').2 = (b'.openRead env path w).2 := by
  have hl := hw (b'.key path) fun p e => h.key_ne p path e.symm
  rw [openRead, await, Act.step_bind, Act.step_bind, Act.get_bind, Act.get_bind, id, id, hl]
  rcases hg : env.getFault with _ | x
  · rcases w.bucket.lookup (b'.key path) with _ | content
    · rfl
    · rfl
  · rfl

/-- …and what it writes is not seen by the other. -/
theorem writeAll_beside {R : Type} [AsyncRead R] {b b' : S3Backend} (h : Apart b b') (env : Env)
    (path path' : String) (reader : R) (w : World) {s : Step World Event}
    (hs : s ∈ (b'.writeAll env path reader w).1) :
    s.world.bucket.lookup (b.key path') = w.bucket.lookup (b.key path') := by
  have hput := writeAll_puts b' env path reader w
  generalize hq : b'.writeAll env path reader w = q at hs hput
  cases hput with
  | failed hsilent => rw [(hsilent s hs).1]
  | refused hsilent =>
      rcases List.mem_append.mp hs with hs | hs
      · rw [(hsilent s hs).1]
      · rw [List.mem_singleton.mp hs]
  | stored hsilent _ hv =>
      rcases List.mem_append.mp hs with hs | hs
      · rw [(hsilent s hs).1]
      · subst hv
        simp only [List.mem_cons, List.not_mem_nil, or_false] at hs
        rcases hs with rfl | rfl | rfl
        · rfl
        · exact AList.lookup_insert_ne (h.key_ne path' path)
        · exact AList.lookup_insert_ne (h.key_ne path' path)

/-- The deployment under `b'` has nothing to do with the objects of the one under `b`. -/
structure Isolated (b b' : S3Backend) : Prop where
  keys : ∀ path path', b.key path ≠ b'.key path'
  strips : ∀ path, b'.stripPrefix (b.key path) = none
  lists : ∀ obj path, obj.key = some (b.key path) → b'.entry obj = none
  reads : ∀ env path w w', b.SameBeside w w' →
    (b'.openRead env path w').2 = (b'.openRead env path w).2
  writes : ∀ (R : Type) [AsyncRead R] (env : Env) (path path' : String) (reader : R) (w : World),
    ∀ s ∈ (b'.writeAll env path reader w).1,
      s.world.bucket.lookup (b.key path') = w.bucket.lookup (b.key path')

theorem Apart.isolated {b b' : S3Backend} (h : Apart b b') : Isolated b b' where
  keys := h.key_ne
  strips path := by
    refine Option.eq_none_iff_forall_ne_some.mpr fun path' e => ?_
    exact h.key_ne path path' (stripPrefix_eq_some.mp e).symm
  lists obj path hobj := by
    refine Option.eq_none_iff_forall_ne_some.mpr fun e he => ?_
    rw [entry_key he] at hobj
    exact h.key_ne path e.name (Option.some.inj hobj).symm
  reads env path _ _ hw := openRead_beside h env path hw
  writes _ _ env path path' reader w _ hs := writeAll_beside h env path path' reader w hs

theorem Apart.symm {b b' : S3Backend} (h : Apart b b') : Apart b' b :=
  ⟨h.nonempty.symm, h.right, h.left⟩

end S3Backend

/-- **The key mapping.**  A key strips to its path, and what strips to a path is its key; a listing
asks for the keys under that same prefix, after the key of its cursor, and names each object it
reports after its key; two prefixes, neither of which begins the other, are isolated. -/
theorem key_mapping (b : S3Backend) :
    (∀ path, b.stripPrefix (b.key path) = some path) ∧
    (∀ k path, b.stripPrefix k = some path → b.key path = k) ∧
    (∀ path, b.key path = b.base ++ path) ∧
    (∀ startAfter token,
      (b.listRequest startAfter token).keyPrefix = (if b.base = "" then none else some b.base) ∧
      (b.listRequest startAfter none).startAfter = startAfter.map b.key) ∧
    (∀ env opts w entries, (b.list env opts w).2 = .ok entries → ∀ e ∈ entries,
      ∃ obj, b.Lists env.server opts.startAfter obj ∧ obj.key = some (b.key e.name)) ∧
    ∀ b', S3Backend.Apart b b' → S3Backend.Isolated b b' ∧ S3Backend.Isolated b' b := by
  refine ⟨fun path => S3Backend.stripPrefix_eq_some.mpr rfl,
    fun k path h => S3Backend.stripPrefix_eq_some.mp h, b.key_eq, b.listRequest_keys, ?_,
    fun b' h => ⟨h.isolated, h.symm.isolated⟩⟩
  intro env opts w entries h e he
  rcases S3Backend.listPages_entries h he with hin | ⟨obj, hobj, hentry⟩
  · cases hin
  · exact ⟨obj, hobj, S3Backend.entry_key hentry⟩

/-- A tenant's objects are not those of a tenant whose name goes on. -/
theorem key_mapping_tenants :
    S3Backend.Isolated ⟨"ferry", "tenant"⟩ ⟨"ferry", "tenant2"⟩ :=
  ((key_mapping ⟨"ferry", "tenant"⟩).2.2.2.2.2 ⟨"ferry", "tenant2"⟩
    ⟨by decide, by decide, by decide⟩).1

end FileFerry
