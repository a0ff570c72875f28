import FileFerry.Results.Keys
import FileFerry.Support.Window

/-!
# Results — Protocol

`ListObjectsV2`, by the requests of the protocol and not by those the backend makes.  A server is
one function of a request: its bucket, its prefix, its `start_after` and its token.

* `Answers bucket req objs`: the objects of the bucket that a request without a token asks for.
* `Gives answer req objs n`: the server gives them in `n` pages, each behind the token of the last.
* `Conforming answer name bucket`: the server answers every such request so.
* `paged size bucket`: a server with pages of `size + 1` objects.  `paged_conforming`: it does.
* `listRequest_first`, `listRequest_behind`: what the backend sends are requests of the protocol.
-/

namespace FileFerry
open Text Window

/-- The bytes of the key of an object. -/
def S3Object.keyBytes (o : S3Object) : List UInt8 := bytes (o.key.getD "")

/-- The object the key stands for is in the bucket, with its size. -/
def S3Object.Stored (bucket : Bucket) (o : S3Object) : Prop :=
  ∃ k c, o.key = some k ∧ bucket.lookup k = some c ∧ o.size = some (c.length : Int)

/-- `objs` are the objects of the bucket the request asks for: those whose keys begin with its
prefix and come after its `start_after`, in the order of their keys. -/
structure Answers (bucket : Bucket) (req : ListObjectsV2Input) (objs : List S3Object) : Prop where
  ascending : Ascending S3Object.keyBytes objs
  stored : ∀ o ∈ objs, o.Stored bucket
  keys : ∀ k, (∃ o ∈ objs, o.key = some k) ↔ bucket.lookup k ≠ none ∧
    (req.keyPrefix.getD "").toList <+: k.toList ∧ Beyond (req.startAfter.map bytes) (bytes k)

/-- The request for the page behind a token: the same, with the token for the `start_after`. -/
def ListObjectsV2Input.behind (req : ListObjectsV2Input) (token : String) : ListObjectsV2Input :=
  { req with startAfter := none, continuationToken := some token }

/-- The server gives the objects in so many pages, of any sizes, each truncated but the last, and
each truncated one with the token of the next. -/
inductive Gives (answer : Endpoint) : ListObjectsV2Input → List S3Object → Nat → Prop where
  | last {req : ListObjectsV2Input} {resp : ListObjectsV2Output} :
      answer req = .ok resp → resp.isTruncated.getD false = false →
      Gives answer req (resp.contents.getD []) 1
  | more {req : ListObjectsV2Input} {resp : ListObjectsV2Output} {token : String}
      {objs : List S3Object} {n : Nat} :
      answer req = .ok resp → resp.isTruncated = some true →
      resp.nextContinuationToken = some token → Gives answer (req.behind token) objs n →
      Gives answer req (resp.contents.getD [] ++ objs) (n + 1)

/-- A server that lists the bucket, whatever is asked of it. -/
def Conforming (answer : Endpoint) (name : String) (bucket : Bucket) : Prop :=
  ∀ req : ListObjectsV2Input, req.bucket = name → req.continuationToken = none →
    ∃ objs n, Answers bucket req objs ∧ Gives answer req objs n

/-! ### Servers there are -/

/-- The objects of the bucket a request asks for, in order. -/
def answering (bucket : Bucket) (req : ListObjectsV2Input) : List S3Object :=
  ((bucket.entries.filter fun s => (req.keyPrefix.getD "").toList.isPrefixOf s.1.toList
    && decide (Beyond (req.startAfter.map bytes) (bytes s.1))).map fun s =>
      ⟨some s.1, some (s.2.length : Int), none⟩).insertionSort fun o o' => o.keyBytes ≤ o'.keyBytes

variable {bucket : Bucket} {req : ListObjectsV2Input}

theorem mem_answering {o : S3Object} : o ∈ answering bucket req ↔ ∃ k c, bucket.lookup k = some c ∧
    ((req.keyPrefix.getD "").toList <+: k.toList ∧ Beyond (req.startAfter.map bytes) (bytes k)) ∧
    o = ⟨some k, some (c.length : Int), none⟩ := by
  rw [answering, List.mem_insertionSort, List.mem_map]
  constructor
  · rintro ⟨⟨k, c⟩, hs, rfl⟩
    rw [List.mem_filter, Bool.and_eq_true, List.isPrefixOf_iff_prefix, decide_eq_true_eq] at hs
    exact ⟨k, c, AList.mem_lookup_iff.mpr hs.1, hs.2, rfl⟩
  · rintro ⟨k, c, hc, hk, rfl⟩
    refine ⟨⟨k, c⟩, ?_, rfl⟩
    rw [List.mem_filter, Bool.and_eq_true, List.isPrefixOf_iff_prefix, decide_eq_true_eq]
    exact ⟨AList.mem_lookup_iff.mp hc, hk⟩

/-- **A server can answer** any request. -/
theorem answers_answering (bucket : Bucket) (req : ListObjectsV2Input) :
    Answers bucket req (answering bucket req) := by
  have htotal : Std.Total fun o o' : S3Object => o.keyBytes ≤ o'.keyBytes :=
    ⟨fun o o' => le_total o.keyBytes o'.keyBytes⟩
  have htrans : IsTrans S3Object fun o o' => o.keyBytes ≤ o'.keyBytes := ⟨fun _ _ _ => le_trans⟩
  refine ⟨?_, fun o ho => ?_, fun k => ?_⟩
  · have hne : (answering bucket req).Pairwise fun o o' => o.keyBytes ≠ o'.keyBytes := by
      refine (List.perm_insertionSort _ _).symm.pairwise ?_ fun {_ _} h => h.symm
      refine List.pairwise_map.mpr (List.Pairwise.filter _ ?_)
      refine (List.pairwise_map.mp bucket.nodupKeys).imp fun {s s'} hss h => hss ?_
      exact bytes_injective h
    exact ((List.pairwise_insertionSort _ _).and hne).imp fun h => lt_of_le_of_ne h.1 h.2
  · obtain ⟨k, c, hc, -, rfl⟩ := mem_answering.mp ho
    exact ⟨k, c, rfl, hc, rfl⟩
  · constructor
    · rintro ⟨o, ho, hk⟩
      obtain ⟨k', c, hc, hb, rfl⟩ := mem_answering.mp ho
      obtain rfl := Option.some.inj hk
      exact ⟨by rw [hc]; simp, hb⟩
    · rintro ⟨hk, hb⟩
      obtain ⟨c, hc⟩ := Option.ne_none_iff_exists'.mp hk
      exact ⟨_, mem_answering.mpr ⟨k, c, hc, hb, rfl⟩, rfl⟩

/-- What comes after an object of an answer is the answer to who has seen the object. -/
theorem answering_after {pre post : List S3Object} {o : S3Object}
    (h : answering bucket req = pre ++ o :: post) (token : Option String) :
    answering bucket { req with startAfter := o.key, continuationToken := token } = post := by
  have ha := answers_answering bucket req
  obtain ⟨hpre, hpost⟩ := ha.ascending.split h
  have hsub : post.Sublist (answering bucket req) := by
    rw [h]
    exact (List.sublist_cons_self o post).trans (List.sublist_append_right pre _)
  have ho : o ∈ answering bucket req := by rw [h]; simp
  obtain ⟨k, c, -, ⟨-, hbeyond⟩, e⟩ := mem_answering.mp ho
  have hkey : o.key = some k := by rw [e]
  have hbytes : o.keyBytes = bytes k := by rw [S3Object.keyBytes, hkey, Option.getD_some]
  rw [hkey]
  refine eq_of_mem_iff (answers_answering _ _).ascending (ha.ascending.sublist hsub) fun o' => ?_
  constructor
  · intro ho'
    obtain ⟨k', c', hc', ⟨hp, hb⟩, rfl⟩ := mem_answering.mp ho'
    have hlt : bytes k < bytes k' := by simpa using hb
    have hmem : (⟨some k', some (c'.length : Int), none⟩ : S3Object) ∈ answering bucket req :=
      mem_answering.mpr ⟨k', c', hc', ⟨hp, fun a ha => (hbeyond a ha).trans hlt⟩, rfl⟩
    rw [h, List.mem_append, List.mem_cons] at hmem
    rcases hmem with hm | hm | hm
    · have hgt : bytes k' < bytes k := by simpa [S3Object.keyBytes, hkey] using hpre _ hm
      exact absurd hgt hlt.asymm
    · rw [e, S3Object.mk.injEq, Option.some.injEq] at hm
      exact absurd hlt (by rw [hm.1]; exact lt_irrefl _)
    · exact hm
  · intro ho'
    have hlt := hpost o' ho'
    obtain ⟨k', c', hc', ⟨hp, -⟩, rfl⟩ := mem_answering.mp (hsub.subset ho')
    refine mem_answering.mpr ⟨k', c', hc', ⟨hp, ?_⟩, rfl⟩
    simpa [S3Object.keyBytes, hkey] using hlt

/-- A server with `size + 1` objects a page, whose tokens are the last keys of its pages. -/
def paged (size : Nat) (bucket : Bucket) : Endpoint := fun req =>
  let objs := answering bucket { req with startAfter := req.continuationToken.or req.startAfter }
  if objs.length ≤ size + 1 then .ok ⟨some objs, some false, none⟩
  else .ok ⟨some (objs.take (size + 1)), some true,
    (objs.take (size + 1)).getLast?.bind S3Object.key⟩

/-- The server gives what is left, page by page. -/
theorem paged_gives (size : Nat) (bucket : Bucket) : ∀ (m : Nat) (req : ListObjectsV2Input)
    (objs : List S3Object), objs.length ≤ m →
      answering bucket { req with startAfter := req.continuationToken.or req.startAfter } = objs →
      ∃ n, n ≤ m + 1 ∧ Gives (paged size bucket) req objs n := by
  intro m
  induction m with
  | zero =>
      intro req objs hm hobjs
      refine ⟨1, le_rfl, @Gives.last _ _ ⟨some objs, some false, none⟩ ?_ rfl⟩
      simp only [paged, hobjs]
      rw [if_pos (hm.trans (Nat.zero_le _))]
  | succ m ih =>
      intro req objs hm hobjs
      by_cases hlen : objs.length ≤ size + 1
      · refine ⟨1, by omega, @Gives.last _ _ ⟨some objs, some false, none⟩ ?_ rfl⟩
        simp only [paged, hobjs]
        rw [if_pos hlen]
      · -- the page ends with an object, whose key is the token
        have htake : (objs.take (size + 1)).length = size + 1 := List.length_take_of_le (by omega)
        obtain ⟨init, o, hpage⟩ : ∃ init o, objs.take (size + 1) = init ++ [o] := by
          rcases List.eq_nil_or_concat (objs.take (size + 1)) with e | ⟨init, o, e⟩
          · rw [e] at htake; cases htake
          · exact ⟨init, o, by rw [e, List.concat_eq_append]⟩
        have hsplit : objs = init ++ o :: objs.drop (size + 1) := by
          rw [← List.singleton_append, ← List.append_assoc, ← hpage, List.take_append_drop]
        have ho : o ∈ objs := by rw [hsplit]; simp
        rw [← hobjs] at ho
        obtain ⟨k, c, -, -, e⟩ := mem_answering.mp ho
        have hkey : o.key = some k := by rw [e]
        have hrest : answering bucket { req.behind k with
            startAfter := (req.behind k).continuationToken.or (req.behind k).startAfter }
              = objs.drop (size + 1) := by
          have h := answering_after (hobjs.trans hsplit) (some k)
          rw [hkey] at h
          exact h
        obtain ⟨n, hn, hgives⟩ := ih _ _ (by rw [List.length_drop]; omega) hrest
        refine ⟨n + 1, by omega, ?_⟩
        have hmore := @Gives.more _ req ⟨some (objs.take (size + 1)), some true, some k⟩ k _ _ (by
          simp only [paged, hobjs]
          rw [if_neg hlen, hpage, List.getLast?_concat, Option.bind_some, hkey]) rfl rfl hgives
        rwa [Option.getD_some, List.take_append_drop] at hmore

/-- **There are servers** of any page size. -/
theorem paged_conforming (size : Nat) (name : String) (bucket : Bucket) :
    Conforming (paged size bucket) name bucket := by
  intro req _ htoken
  have hstart : req.continuationToken.or req.startAfter = req.startAfter := by
    rw [htoken, Option.none_or]
  obtain ⟨n, -, hgives⟩ := paged_gives size bucket _ req _ le_rfl rfl
  rw [hstart] at hgives
  exact ⟨_, n, answers_answering bucket req, hgives⟩

theorem length_answering_le (bucket : Bucket) (req : ListObjectsV2Input) :
    (answering bucket req).length ≤ bucket.entries.length := by
  rw [answering, List.length_insertionSort, List.length_map]
  exact List.length_filter_le _ _

/-! ### The backend's requests -/

namespace S3Backend

/-- What a listing asks a server for: the objects under the prefix, beyond the cursor. -/
def asks (b : S3Backend) (startAfter : Option String) : ListObjectsV2Input where
  bucket := b.bucket
  keyPrefix := if b.base = "" then none else some b.base
  startAfter := startAfter.map b.key
  continuationToken := none

theorem listRequest_first (b : S3Backend) (startAfter : Option String) :
    b.listRequest startAfter none = b.asks startAfter := by
  rw [listRequest, asks, prefixArg_eq, startAfterKey_eq, if_pos rfl]

/-- **The request for the next page** is the one behind its token. -/
theorem listRequest_behind (b : S3Backend) (startAfter token : Option String) (next : String) :
    b.listRequest startAfter (some next) = (b.listRequest startAfter token).behind next := by
  rw [listRequest, listRequest, ListObjectsV2Input.behind, if_neg (by simp)]

/-- One server is asked for the objects under the prefix beyond the cursor, gives them, and is there
for as many requests as they have pages. -/
def Serves (b : S3Backend) (bucket : Bucket) (startAfter : Option String)
    (server : Server) : Prop :=
  ∃ answer n objs k, server = List.replicate n answer ∧ k ≤ n ∧
    Answers bucket (b.asks startAfter) objs ∧ Gives answer (b.asks startAfter) objs k

end S3Backend

/-- As many requests as there are objects, and one more, are enough. -/
theorem paged_serves (size : Nat) (b : S3Backend) (bucket : Bucket) (startAfter : Option String)
    {m : Nat} (hm : bucket.entries.length < m) :
    b.Serves bucket startAfter (List.replicate m (paged size bucket)) := by
  obtain ⟨k, hk, hgives⟩ := paged_gives size bucket _ (b.asks startAfter) _
    (length_answering_le bucket (b.asks startAfter)) rfl
  exact ⟨_, m, _, k, rfl, by omega, answers_answering bucket (b.asks startAfter), hgives⟩

/-- **A server that lists the bucket** serves a listing, if it is there for long enough. -/
theorem Conforming.serves {answer : Endpoint} {b : S3Backend}
    (h : Conforming answer b.bucket bucket)
    (startAfter : Option String) :
    ∃ n, ∀ m, n ≤ m → b.Serves bucket startAfter (List.replicate m answer) := by
  obtain ⟨objs, n, ha, hg⟩ := h (b.asks startAfter) rfl rfl
  exact ⟨n, fun m hm => ⟨answer, m, objs, n, rfl, hm, ha, hg⟩⟩

end FileFerry
