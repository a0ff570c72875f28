import FileFerry.Source.Model

/-!
# Source — Http

Requests and responses, as much of them as the router reads and writes.

* `toStr_eq_some`: a header value that reads as text is that text.
-/

namespace FileFerry
open Text

/-- A byte a header value may hold. -/
def validByte (b : UInt8) : Bool := (32 ≤ b && b != 127) || b == 9

/-- A byte `HeaderValue::to_str` accepts. -/
def visibleByte (b : UInt8) : Bool := (32 ≤ b && b < 127) || b == 9

/-- `http::HeaderValue`. -/
structure HeaderValue where
  bytes : List UInt8
  valid : bytes.all validByte = true

namespace HeaderValue

/-- `HeaderValue::from_str`. -/
def fromStr (s : String) : Option HeaderValue :=
  if h : (Text.bytes s).all validByte = true then some ⟨Text.bytes s, h⟩ else none

/-- `HeaderValue::to_str`. -/
def toStr (v : HeaderValue) : Option String :=
  if v.bytes.all visibleByte then some (ofAscii v.bytes) else none

theorem visibleByte_lt {b : UInt8} (h : visibleByte b = true) : b < 128 := by
  simp only [visibleByte, Bool.or_eq_true, Bool.and_eq_true, decide_eq_true_eq, beq_iff_eq,
    UInt8.lt_iff_toNat_lt] at h ⊢
  rcases h with ⟨-, h⟩ | rfl
  · exact h.trans (by decide)
  · decide

/-- **A value that reads as text** is that text. -/
theorem toStr_eq_some {v : HeaderValue} {s : String} :
    v.toStr = some s ↔ v.bytes = Text.bytes s ∧ v.bytes.all visibleByte = true := by
  rw [toStr]
  by_cases h : v.bytes.all visibleByte = true
  · have hb : Text.bytes (ofAscii v.bytes) = v.bytes :=
      bytes_ofAscii fun b hb => visibleByte_lt (List.all_eq_true.mp h b hb)
    rw [if_pos h, Option.some.injEq]
    constructor
    · rintro rfl; exact ⟨hb.symm, h⟩
    · rintro ⟨e, -⟩; rw [← bytes_inj, hb, e]
  · rw [if_neg h]
    exact ⟨fun e => (by cases e), fun e => absurd e.2 h⟩

end HeaderValue

/-- `http::HeaderMap`; the names are lower-case. -/
abbrev HeaderMap := List (String × HeaderValue)

namespace HeaderMap

/-- `HeaderMap::get`: the first value under the name. -/
def get (m : HeaderMap) (name : String) : Option HeaderValue := m.lookup name

/-- `HeaderMap::insert`. -/
def insert (m : HeaderMap) (name : String) (v : HeaderValue) : HeaderMap :=
  (name, v) :: m.filter fun p => p.1 ≠ name

/-- `entry(name).or_insert(v)`. -/
def orInsert (m : HeaderMap) (name : String) (v : HeaderValue) : HeaderMap :=
  if m.get name = none then m ++ [(name, v)] else m

theorem get_insert (m : HeaderMap) (name : String) (v : HeaderValue) :
    (m.insert name v).get name = some v := by
  rw [get, insert, List.lookup_cons_self]

theorem lookup_cons_ne (m : HeaderMap) {name name' : String} (v : HeaderValue) (h : name' ≠ name) :
    List.lookup name' ((name, v) :: m) = List.lookup name' m := by
  rw [List.lookup_cons, beq_eq_false_iff_ne.mpr h]

theorem get_insert_ne (m : HeaderMap) {name name' : String} (v : HeaderValue) (h : name' ≠ name) :
    (m.insert name v).get name' = m.get name' := by
  rw [get, insert, lookup_cons_ne _ v h, get]
  induction m with
  | nil => rfl
  | cons p m ih =>
      rw [List.filter_cons]
      split
      · rw [List.lookup_cons, List.lookup_cons, ih]
      · rename_i hp
        have hname : p.1 = name := by simpa using hp
        rw [ih, ← lookup_cons_ne m p.2 (hname ▸ h)]

theorem get_orInsert_ne (m : HeaderMap) {name name' : String} (v : HeaderValue) (h : name' ≠ name) :
    (m.orInsert name v).get name' = m.get name' := by
  rw [orInsert]
  split
  · rw [get, List.lookup_append, lookup_cons_ne _ v h, List.lookup_nil, Option.or_none, get]
  · rfl

end HeaderMap

/-- How the body of a request ends. -/
inductive BodyEnd where
  | complete
  | broken (text : String)
  /-- It is still being sent when `BODY_READ_TIMEOUT` is over. -/
  | stalled

structure Body where
  bytes : List UInt8
  ending : BodyEnd

structure Request where
  method : String
  path : String
  query : Option String
  version : String
  headers : HeaderMap
  body : Body

/-- The `Display` of the URI. -/
def Request.uri (req : Request) : String :=
  match req.query with
  | some q => req.path ++ "?" ++ q
  | none => req.path

/-- `serde_json::Value`, without fractions. -/
inductive Json where
  | null
  | bool (b : Bool)
  | num (n : Nat)
  | str (s : String)
  | arr (l : List Json)
  | obj (fields : List (String × Json))

structure Response where
  status : Nat
  headers : HeaderMap
  body : Option Json

def Response.json (status : Nat) (body : Json) : Response := ⟨status, [], some body⟩

def Response.empty (status : Nat) : Response := ⟨status, [], none⟩

/-- The text under a name of an object. -/
def Json.text (name : String) : Json → Option String
  | .obj fields =>
    match fields.lookup name with
    | some (.str s) => some s
    | _ => none
  | _ => none

end FileFerry
