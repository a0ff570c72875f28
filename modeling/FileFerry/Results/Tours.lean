import FileFerry.Results.Paging

/-!
# Results — Tours

A client that lists the bucket page by page while it changes, as `Results/Paging` has it for the
data root, and both at once.

* `Bucketed.lists`: what a visit to the bucket lists.
* `bucket_walk_exact`: nothing is reported twice, and nothing that stays is missed.
* `walks_agree`: the bucket and a data root with the same files are walked alike.
-/

namespace FileFerry
open Text Posix AsyncIo Steps Window

variable {st : AppState} {fs : FsBackend} {v : Visit} {vs : List Visit}

/-! ### The bucket -/

/-- An object right under the prefix, by its name and size. -/
def S3Backend.HasObject (b : S3Backend) (bucket : Bucket) (name : String) (n : Nat) : Prop :=
  name ≠ "" ∧ '/' ∉ name.toList ∧ ∃ c, bucket.lookup (b.key name) = some c ∧ c.length = n

/-- What a client may ask for, a server that answers from the bucket, and objects right under the
prefix whose names the validator accepts. -/
structure Bucketed (b : S3Backend) (v : Visit) : Prop where
  limit : ∀ n, v.limit = some n → n ≤ MAX_LIST_LIMIT
  served : ∀ cursor, b.Serves v.world.bucket cursor v.env.server
  names : ∀ name n, b.HasObject v.world.bucket name n → validatePath name = .ok ()

theorem Bucketed.lists {b : S3Backend} (h : Bucketed b v) :
    Lists (.s3 b) v (b.objects v.world.bucket) where
  limit := h.limit
  listed env opts hlim hserve := by
    rw [BackendRef.list, Act.emit_bind]
    exact S3Backend.list_page hlim hserve
  served := h.served
  ascending := b.objects_ascending v.world.bucket
  valid p hp := h.names p.1 p.2 (S3Backend.mem_objects.mp hp)

/-- **Pagination of the bucket is exact** while its objects change, whatever pages the server gives:
what a walk reports, and that it ends once they stop changing. -/
theorem bucket_walk_exact {b : S3Backend} (hs3 : st.backends.s3 = some (.s3 b)) :
    (∀ vs resps, (∀ v ∈ vs, Bucketed b v) → StoreWalk st .s3 none vs resps →
      ExactTour (fun v => b.HasObject v.world.bucket) vs resps) ∧
    ∀ visits : Nat → Visit, (∀ i, Bucketed b (visits i)) →
      (∃ m, ∀ i, m ≤ i → ∀ name n, b.HasObject (visits i).world.bucket name n ↔
        b.HasObject (visits m).world.bucket name n) →
      ∃ n resps, StoreWalk st .s3 none ((List.range n).map visits) resps := by
  have hb : st.backends.pick .s3 = .ok (.s3 b) := by rw [Backends.pick, hs3]
  refine ⟨fun vs resps hs h => ?_, fun visits hs hm => ?_⟩
  · have hhas : (fun (v : Visit) name n => (name, n) ∈ b.objects v.world.bucket)
        = fun v => b.HasObject v.world.bucket := by
      funext v name n
      exact propext S3Backend.mem_objects
    rw [← hhas]
    exact h.exact hb fun v hv => (hs v hv).lists
  · obtain ⟨m, hm⟩ := hm
    refine StoreWalk.ends (fun v => b.objects v.world.bucket) hb (fun i => (hs i).lists) m
      fun i hi => ?_
    refine eq_of_mem_iff (b.objects_ascending _) (b.objects_ascending _) fun p => ?_
    rw [S3Backend.mem_objects, S3Backend.mem_objects]
    exact hm i hi p.1 p.2

/-! ### Both stores -/

/-- A data root with the same files lists them. -/
theorem Bucketed.lists_root {b : S3Backend} (h : Bucketed b v) {r : Loc}
    (hroot : Rooted fs v.world.host r) (hsame : SameFiles v.world.host r b v.world.bucket) :
    Lists (.fs fs) v (b.objects v.world.bucket) where
  limit := h.limit
  listed env opts _ _ := by
    rw [BackendRef.list, Act.emit_bind, hsame.objects_eq hroot]
    exact FsBackend.list_page hroot opts
  served _ := trivial
  ascending := b.objects_ascending v.world.bucket
  valid p hp := h.names p.1 p.2 (S3Backend.mem_objects.mp hp)

/-- **The stores are walked alike**: where at each request the data root has the files that are the
objects of the bucket, a client gets the same names and sizes, on the same pages, from either. -/
theorem walks_agree {b : S3Backend} (hfs : st.backends.fs = .fs fs)
    (hs3 : st.backends.s3 = some (.s3 b)) (hs : ∀ v ∈ vs, Bucketed b v ∧ ∃ r,
      Rooted fs v.world.host r ∧ SameFiles v.world.host r b v.world.bucket)
    (ps : List (List (String × Nat))) :
    (∃ resps, StoreWalk st .s3 none vs resps ∧ resps.map ListFilesResponse.named = ps) ↔
      ∃ resps, ListWalk st none vs resps ∧ resps.map ListFilesResponse.named = ps := by
  have hpick : st.backends.pick .s3 = .ok (.s3 b) := by rw [Backends.pick, hs3]
  have hpick' : st.backends.pick .fs = .ok (.fs fs) := by rw [Backends.pick, hfs]
  have hlists : ∀ v ∈ vs, Lists (.s3 b) v (b.objects v.world.bucket) := fun v hv =>
    (hs v hv).1.lists
  have hlists' : ∀ v ∈ vs, Lists (.fs fs) v (b.objects v.world.bucket) := fun v hv => by
    obtain ⟨hbucket, r, hroot, hsame⟩ := hs v hv
    exact hbucket.lists_root hroot hsame
  constructor
  · rintro ⟨resps, h, rfl⟩
    obtain ⟨resps', h', hnamed⟩ :=
      StoreWalk.ofWalk hpick' (h.toWalk hpick hlists (by simp)) vs none rfl hlists' rfl (by simp)
    exact ⟨resps', h', hnamed⟩
  · rintro ⟨resps, h, rfl⟩
    have hw := h.toWalk hpick' hlists' (by simp)
    exact StoreWalk.ofWalk hpick hw vs none rfl hlists rfl (by simp)

/-! ### One file at a time -/

/-- A service with an empty data root and a bucket under the prefix. -/
def twoStores : AppState := ⟨⟨.fs dataFs, some (.s3 ferryIn)⟩, .default⟩

theorem twoStores_s3 : twoStores.backends.s3 = some (.s3 ferryIn) := rfl

theorem changing_entries (i : Nat) : (changing i).world.bucket.entries.length < 5 := by
  match i with
  | 0 => decide
  | 1 => decide
  | j + 2 =>
      rw [changing_from_two (Nat.le_add_left 2 j)]
      decide

/-- The bucket is served at every visit. -/
theorem changing_bucketed (i : Nat) : Bucketed ferryIn (changing i) where
  limit := (changing_snapshot i).limit
  served cursor := paged_serves 0 ferryIn (changing i).world.bucket cursor (changing_entries i)
  names name n := by
    rintro ⟨hne, hslash, c, hc, -⟩
    exact changing_names i hne hslash (by rw [hc]; simp)

/-- A walk of the bucket while objects come and go. -/
theorem bucket_walk_changing : ∃ n resps,
    StoreWalk twoStores .s3 none ((List.range n).map changing) resps ∧
      ExactTour (fun v => ferryIn.HasObject v.world.bucket)
        ((List.range n).map changing) resps := by
  obtain ⟨n, resps, h⟩ := (bucket_walk_exact twoStores_s3).2 changing changing_bucketed
    ⟨2, fun i hi => by rw [changing_from_two hi]; exact fun _ _ => Iff.rfl⟩
  refine ⟨n, resps, h, (bucket_walk_exact twoStores_s3).1 _ _ (fun v hv => ?_) h⟩
  obtain ⟨i, -, rfl⟩ := List.mem_map.mp hv
  exact changing_bucketed i

theorem walks_agree_changing : ∃ n resps resps',
    StoreWalk twoStores .s3 none ((List.range n).map changing) resps ∧
      ListWalk twoStores none ((List.range n).map changing) resps' ∧
      resps'.map ListFilesResponse.named = resps.map ListFilesResponse.named := by
  have hpick : twoStores.backends.pick .s3 = .ok (.s3 ferryIn) := rfl
  obtain ⟨n, resps, h⟩ := StoreWalk.ends (fun v => ferryIn.objects v.world.bucket) hpick
    (fun i => (changing_bucketed i).lists) 2 fun i hi => by rw [changing_from_two hi]
  obtain ⟨resps', h', hnamed⟩ := (walks_agree rfl twoStores_s3 (fun v hv => by
    obtain ⟨i, -, rfl⟩ := List.mem_map.mp hv
    exact ⟨changing_bucketed i, _, changing_rooted i, changing_same i⟩) _).mp ⟨resps, h, rfl⟩
  exact ⟨n, resps, resps', h, h', hnamed⟩

end FileFerry
