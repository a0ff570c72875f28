import FileFerry.Posix.Walk

/-!
# Io — Reader

Asynchronous readers.  A reader is polled with a buffer, and answers that it is ready, having
appended bytes to the buffer or reached its end or failed, or that it is pending.

* `ByteStream`: a reader that yields the same bytes and the same ending whatever buffers it is
  polled with (`stream`).
* `Script`: bytes, delays and errors in the order in which they come; `deliver` is the script by
  which given bytes come, cut and delayed as a plan says.
* `TimeoutReader`: a reader that fails when another stays pending too long.  A script so guarded
  is a `ByteStream`, and `play` is what it yields.
-/

namespace AsyncIo
open Posix (Errno)

/-- `std::io::Error`. -/
inductive IoError where
  | os (e : Errno)
  | timedOut
  | other (message : String)
  deriving DecidableEq

def IoError.display : IoError → String
  | .os e => e.display
  | .timedOut => "timed out"
  | .other message => message

/-- `std::io::Error::raw_os_error`. -/
def IoError.rawOsError : IoError → Option Errno
  | .os e => some e
  | _ => none

/-- `tokio::io::ReadBuf`. -/
structure ReadBuf where
  filled : List UInt8
  capacity : Nat
  fits : filled.length ≤ capacity

namespace ReadBuf

/-- How many more bytes fit. -/
def room (b : ReadBuf) : Nat := b.capacity - b.filled.length

/-- The buffer with the first of `bs` appended, as many as fit. -/
def put (b : ReadBuf) (bs : List UInt8) : ReadBuf where
  filled := b.filled ++ bs.take b.room
  capacity := b.capacity
  fits := by
    have := b.fits
    rw [List.length_append, List.length_take, room]
    omega

/-- The buffer with the first `n` of its bytes alone. -/
def setFilled (b : ReadBuf) (n : Nat) : ReadBuf where
  filled := b.filled.take n
  capacity := b.capacity
  fits := by
    have := b.fits
    rw [List.length_take]
    omega

/-- The buffer that holds `buf` and has room for `n + 1` more bytes. -/
def of (buf : List UInt8) (n : Nat) : ReadBuf := ⟨buf, buf.length + n + 1, by omega⟩

@[simp] theorem setFilled_filled (b : ReadBuf) (n : Nat) :
    (b.setFilled n).filled = b.filled.take n := rfl

@[simp] theorem of_filled (buf : List UInt8) (n : Nat) : (of buf n).filled = buf := rfl

@[simp] theorem of_room (buf : List UInt8) (n : Nat) : (of buf n).room = n + 1 := by
  simp only [room, of]; omega

end ReadBuf

/-- What a poll answers. -/
inductive Poll where
  | pending
  | ready (r : Except IoError Unit)

/-- A poll's answer, the reader and the buffer after it. -/
structure Polled (R : Type) where
  poll : Poll
  reader : R
  buf : ReadBuf

/-- `tokio::io::AsyncRead`, with the reader's clock and a bound on how often it can be polled
before it ends. -/
class AsyncRead (R : Type) where
  pollRead : R → ReadBuf → Polled R
  clock : R → Nat
  rank : R → Nat

export AsyncRead (pollRead clock rank)

variable {R : Type}

/-- What a poll can do to a buffer with room, for a reader that yields the bytes and then the
ending `s`. -/
inductive Reads [AsyncRead R] (stream : R → List UInt8 × Option IoError) (r : R) (b : ReadBuf) :
    Polled R → Prop where
  | pending {r' : R} : rank r' < rank r → stream r' = stream r → Reads stream r b ⟨.pending, r', b⟩
  | bytes {r' : R} {b' : ReadBuf} {a : List UInt8} : rank r' < rank r → a ≠ [] →
      b'.filled = b.filled ++ a → stream r = (a ++ (stream r').1, (stream r').2) →
      Reads stream r b ⟨.ready (.ok ()), r', b'⟩
  | eof {r' : R} : stream r = ([], none) → Reads stream r b ⟨.ready (.ok ()), r', b⟩
  | error {r' : R} {e : IoError} : stream r = ([], some e) →
      Reads stream r b ⟨.ready (.error e), r', b⟩

/-- A reader whose output does not depend on the buffers it is polled with. -/
class ByteStream (R : Type) extends AsyncRead R where
  stream : R → List UInt8 × Option IoError
  reads : ∀ r b, 0 < b.room → Reads stream r b (pollRead r b)

export ByteStream (stream)

/-! ### Scripts -/

/-- What a reader meets next.  Data is at least one byte; a delay lasts until the next poll. -/
inductive ReadEvent where
  | data (b : UInt8) (bs : List UInt8)
  | pending (elapsed : Nat)
  | error (e : IoError)

structure Script where
  events : List ReadEvent
  clock : Nat

/-- The data event of `bs`, if there is one, before the others. -/
def ReadEvent.push (bs : List UInt8) (rest : List ReadEvent) : List ReadEvent :=
  match bs with
  | [] => rest
  | b :: bs => .data b bs :: rest

def ReadEvent.size : ReadEvent → Nat
  | .data _ bs => bs.length + 1
  | _ => 1

def Script.pollRead (s : Script) (buf : ReadBuf) : Polled Script :=
  match s.events with
  | [] => ⟨.ready (.ok ()), s, buf⟩
  | .data b bs :: rest =>
    ⟨.ready (.ok ()), ⟨ReadEvent.push ((b :: bs).drop buf.room) rest, s.clock⟩, buf.put (b :: bs)⟩
  | .pending elapsed :: rest => ⟨.pending, ⟨rest, s.clock + elapsed⟩, buf⟩
  | .error e :: rest => ⟨.ready (.error e), ⟨rest, s.clock⟩, buf⟩

def Script.rank (s : Script) : Nat := (s.events.map ReadEvent.size).sum

instance : AsyncRead Script where
  pollRead := Script.pollRead
  clock := Script.clock
  rank := Script.rank

theorem rank_push (bs : List UInt8) (rest : List ReadEvent) (t : Nat) :
    Script.rank ⟨ReadEvent.push bs rest, t⟩ = bs.length + Script.rank ⟨rest, t⟩ := by
  cases bs with
  | nil => simp [ReadEvent.push]
  | cons b bs => simp [ReadEvent.push, Script.rank, ReadEvent.size]

/-- How bytes come: in a chunk of so many and one more, after a delay, or not at all. -/
inductive Feed where
  | chunk (n : Nat)
  | pending (elapsed : Nat)
  | error (e : IoError)

/-- The script by which the bytes come as the plan says, and what it leaves in one piece. -/
def deliver : List Feed → List UInt8 → List ReadEvent
  | [], c => ReadEvent.push c []
  | .chunk n :: plan, c => ReadEvent.push (c.take (n + 1)) (deliver plan (c.drop (n + 1)))
  | .pending elapsed :: plan, c => .pending elapsed :: deliver plan c
  | .error e :: plan, c => .error e :: deliver plan c

/-! ### Giving up on a reader -/

/-- `tokio_io_timeout::TimeoutReader`: `deadline` is set while the reader is pending. -/
structure TimeoutReader (R : Type) where
  reader : R
  timeout : Option Nat
  deadline : Option Nat

namespace TimeoutReader

def new (r : R) : TimeoutReader R := ⟨r, none, none⟩

def setTimeout (t : TimeoutReader R) (timeout : Option Nat) : TimeoutReader R :=
  { t with timeout := timeout }

def pollRead [AsyncRead R] (t : TimeoutReader R) (buf : ReadBuf) : Polled (TimeoutReader R) :=
  let p := AsyncRead.pollRead t.reader buf
  match p.poll with
  | .pending =>
    match t.timeout with
    | none => ⟨.pending, { t with reader := p.reader }, p.buf⟩
    | some limit =>
      -- the timer is set at the first of several pending polls, and looked at in each
      let deadline := t.deadline.getD (clock t.reader + limit)
      let t' : TimeoutReader R := ⟨p.reader, t.timeout, some deadline⟩
      if deadline ≤ clock t.reader then ⟨.ready (.error .timedOut), t', p.buf⟩
      else ⟨.pending, t', p.buf⟩
  | .ready r => ⟨.ready r, ⟨p.reader, t.timeout, none⟩, p.buf⟩

instance [AsyncRead R] : AsyncRead (TimeoutReader R) where
  pollRead := TimeoutReader.pollRead
  clock t := clock t.reader
  rank t := rank t.reader

end TimeoutReader

/-- What the events yield under a limit on delays: the bytes until the end, or until an error. -/
def play (limit : Option Nat) : Option Nat → Nat → List ReadEvent → List UInt8 × Option IoError
  | _, _, [] => ([], none)
  | _, now, .data b bs :: rest =>
    let q := play limit none now rest
    (b :: bs ++ q.1, q.2)
  | deadline, now, .pending elapsed :: rest =>
    match limit with
    | none => play limit deadline (now + elapsed) rest
    | some t =>
      let d := deadline.getD (now + t)
      if d ≤ now then ([], some .timedOut) else play limit (some d) (now + elapsed) rest
  | _, _, .error e :: _ => ([], some e)

theorem play_data (limit dl : Option Nat) (now : Nat) (b : UInt8) (bs : List UInt8)
    (rest : List ReadEvent) : play limit dl now (.data b bs :: rest)
      = (b :: bs ++ (play limit none now rest).1, (play limit none now rest).2) := rfl

theorem play_pending (t : Nat) (dl : Option Nat) (now elapsed : Nat) (rest : List ReadEvent) :
    play (some t) dl now (.pending elapsed :: rest)
      = if dl.getD (now + t) ≤ now then ([], some .timedOut)
        else play (some t) (some (dl.getD (now + t))) (now + elapsed) rest := rfl

theorem play_push (limit dl : Option Nat) (now : Nat) (bs : List UInt8) (rest : List ReadEvent)
    (h : bs ≠ []) : play limit dl now (ReadEvent.push bs rest)
      = (bs ++ (play limit none now rest).1, (play limit none now rest).2) := by
  cases bs with
  | nil => exact absurd rfl h
  | cons b bs => rfl

/-- Of data, what is taken and what is left make the whole. -/
theorem play_split (limit dl : Option Nat) (now n : Nat) (b : UInt8) (bs : List UInt8)
    (rest : List ReadEvent) :
    play limit dl now (.data b bs :: rest)
      = ((b :: bs).take n ++ (play limit none now (ReadEvent.push ((b :: bs).drop n) rest)).1,
        (play limit none now (ReadEvent.push ((b :: bs).drop n) rest)).2) := by
  by_cases h : (b :: bs).drop n = []
  · have ht : (b :: bs).take n = b :: bs := by
      rw [List.take_of_length_le (List.drop_eq_nil_iff.mp h)]
    rw [h, ht]; rfl
  · rw [play_push _ _ _ _ _ h, ← List.append_assoc, List.take_append_drop]; rfl

/-- What the guarded script yields. -/
def TimeoutReader.stream (t : TimeoutReader Script) : List UInt8 × Option IoError :=
  play t.timeout t.deadline t.reader.clock t.reader.events

/-- **A guarded script** yields what `play` says, whatever buffers it is polled with. -/
theorem TimeoutReader.reads (t : TimeoutReader Script) (b : ReadBuf) (hb : 0 < b.room) :
    Reads TimeoutReader.stream t b (AsyncRead.pollRead t b) := by
  obtain ⟨⟨events, now⟩, limit, dl⟩ := t
  cases events with
  | nil => exact .eof rfl
  | cons ev rest =>
      cases ev with
      | data x bs =>
          refine .bytes (a := (x :: bs).take b.room) ?_ (by simp; omega) rfl
            (play_split limit dl now b.room x bs rest)
          show Script.rank ⟨ReadEvent.push ((x :: bs).drop b.room) rest, now⟩
            < Script.rank ⟨.data x bs :: rest, now⟩
          rw [rank_push]
          simp only [List.length_drop, List.length_cons, Script.rank, List.map_cons,
            List.sum_cons, ReadEvent.size]
          omega
      | error e => exact .error rfl
      | pending elapsed =>
          have hrank : Script.rank ⟨rest, now + elapsed⟩
              < Script.rank ⟨.pending elapsed :: rest, now⟩ := by
            simp [Script.rank, ReadEvent.size]
          cases limit with
          | none => exact .pending hrank rfl
          | some limit =>
              by_cases h : dl.getD (now + limit) ≤ now
              · have hp : AsyncRead.pollRead (⟨⟨.pending elapsed :: rest, now⟩, some limit, dl⟩ :
                    TimeoutReader Script) b = ⟨.ready (.error .timedOut),
                      ⟨⟨rest, now + elapsed⟩, some limit, some (dl.getD (now + limit))⟩, b⟩ :=
                  if_pos h
                rw [hp]
                exact .error (by simp only [TimeoutReader.stream, play, if_pos h])
              · have hp : AsyncRead.pollRead (⟨⟨.pending elapsed :: rest, now⟩, some limit, dl⟩ :
                    TimeoutReader Script) b = ⟨.pending,
                      ⟨⟨rest, now + elapsed⟩, some limit, some (dl.getD (now + limit))⟩, b⟩ :=
                  if_neg h
                rw [hp]
                refine .pending hrank ?_
                simp only [TimeoutReader.stream, play, if_neg h]

instance : ByteStream (TimeoutReader Script) where
  stream := TimeoutReader.stream
  reads := TimeoutReader.reads

/-! ### Scripts that reach their end -/

/-- The bytes of the events, errors and delays left out. -/
def bytesOf : List ReadEvent → List UInt8
  | [] => []
  | .data b bs :: rest => b :: bs ++ bytesOf rest
  | .pending _ :: rest => bytesOf rest
  | .error _ :: rest => bytesOf rest

/-- Of several delays in a row, all but the last are over before the limit: with the timer set to
`deadline`, or not set, it does not go off at any of the events. -/
def Timely (limit : Nat) : Option Nat → Nat → List ReadEvent → Prop
  | _, _, [] => True
  | _, now, .data _ _ :: rest => Timely limit none now rest
  | deadline, now, .pending elapsed :: rest =>
    now < deadline.getD (now + limit) ∧
      Timely limit (some (deadline.getD (now + limit))) (now + elapsed) rest
  | _, now, .error _ :: rest => Timely limit none now rest

def Faultless (events : List ReadEvent) : Prop := ∀ e, .error e ∉ events

theorem Faultless.tail {ev : ReadEvent} {rest : List ReadEvent} (h : Faultless (ev :: rest)) :
    Faultless rest := fun e he => h e (List.mem_cons_of_mem _ he)

/-- **Timely events without an error** yield all their bytes. -/
theorem play_of_timely {limit : Nat} : ∀ {events : List ReadEvent} {dl : Option Nat} {now : Nat},
    Timely limit dl now events → Faultless events →
      play (some limit) dl now events = (bytesOf events, none)
  | [], _, _, _, _ => rfl
  | .data b bs :: rest, _, now, ht, hf => by
      have ht' : Timely limit none now rest := ht
      rw [play_data, play_of_timely ht' hf.tail, bytesOf]
  | .pending elapsed :: rest, dl, now, ht, hf => by
      have hd : ¬ dl.getD (now + limit) ≤ now := not_le.mpr ht.1
      rw [play_pending, if_neg hd, play_of_timely ht.2 hf.tail, bytesOf]
  | .error e :: rest, _, _, _, hf => absurd List.mem_cons_self (hf e)

/-- …and only they do not fail. -/
theorem timely_of_play {limit : Nat} : ∀ {events : List ReadEvent} {dl : Option Nat} {now : Nat},
    (play (some limit) dl now events).2 = none → Timely limit dl now events ∧ Faultless events
  | [], _, _, _ => ⟨trivial, by simp [Faultless]⟩
  | .data b bs :: rest, _, now, h => by
      rw [play_data] at h
      obtain ⟨ht, hf⟩ := timely_of_play h
      exact ⟨ht, fun e he => hf e (by simpa using he)⟩
  | .pending elapsed :: rest, dl, now, h => by
      rw [play_pending] at h
      by_cases hd : dl.getD (now + limit) ≤ now
      · rw [if_pos hd] at h; cases h
      · rw [if_neg hd] at h
        obtain ⟨ht, hf⟩ := timely_of_play h
        exact ⟨⟨not_le.mp hd, ht⟩, fun e he => hf e (by simpa using he)⟩
  | .error e :: rest, _, _, h => by cases h

/-- What is yielded begins the bytes of the events. -/
theorem play_isPrefix (limit : Option Nat) : ∀ (events : List ReadEvent)
    (dl : Option Nat) (now : Nat),
    (play limit dl now events).1 <+: bytesOf events
  | [], _, _ => List.prefix_refl _
  | .data b bs :: rest, _, now => by
      rw [play_data, bytesOf]
      exact List.prefix_append_right_inj _ |>.mpr (play_isPrefix limit rest none now)
  | .pending elapsed :: rest, dl, now => by
      rw [bytesOf]
      cases limit with
      | none => exact play_isPrefix none rest dl (now + elapsed)
      | some t =>
          rw [play_pending]
          split
          · exact List.nil_prefix
          · exact play_isPrefix (some t) rest _ (now + elapsed)
  | .error e :: rest, _, _ => List.nil_prefix

theorem bytesOf_push (bs : List UInt8) (rest : List ReadEvent) :
    bytesOf (ReadEvent.push bs rest) = bs ++ bytesOf rest := by
  cases bs with
  | nil => rfl
  | cons b bs => rfl

@[simp] theorem bytesOf_deliver : ∀ (plan : List Feed) (c : List UInt8),
    bytesOf (deliver plan c) = c
  | [], c => by rw [deliver, bytesOf_push]; simp [bytesOf]
  | .chunk n :: plan, c => by
      rw [deliver, bytesOf_push, bytesOf_deliver plan, List.take_append_drop]
  | .pending elapsed :: plan, c => bytesOf_deliver plan c
  | .error e :: plan, c => bytesOf_deliver plan c

end AsyncIo
