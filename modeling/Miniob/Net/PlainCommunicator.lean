import Mathlib.Data.List.GetD
import Mathlib.Data.List.TakeWhile
import Miniob.Common.Comparator

/-!
# Reading a request

`PlainCommunicator::read_event` calls `read` until it has found a zero, its buffer is full, or there
is nothing more to read. How the bytes are cut into pieces makes no difference.

* `Socket`: the bytes of the client, and what `read` does in one call after the other.
* `readLoop`, `readEvent`: the loop, for at most `fuel` calls, and the checks behind it.
* `answer`: what the bytes alone amount to. `readEvent_eq` says that it is found, and when the loop
  ends.

A write outside of the buffer and a string without a zero in the buffer are an outcome of their own.
-/

namespace Miniob.Net

open Miniob.Common

/-! ## The socket -/

/-- What the next call of `read` does: there is nothing yet, or it fails, or up to `n + 1` bytes
have arrived. -/
inductive Arrival
  | again
  | failed
  | upTo (n : ℕ)
  deriving DecidableEq

/-- A connection. The client sends the bytes and then closes it. -/
structure Socket where
  /-- The bytes that have not been read. -/
  stream : List Byte
  /-- What the calls of `read` do from now on. -/
  arrivals : ℕ → Arrival

/-- What a call of `read` returns: `EAGAIN`, another error, or the number of these bytes. -/
inductive ReadResult
  | again
  | failed
  | bytes (piece : List Byte)

/-- The socket after a call that has returned `len` bytes. -/
def Socket.after (socket : Socket) (len : ℕ) : Socket :=
  ⟨socket.stream.drop len, fun i => socket.arrivals (i + 1)⟩

/-- A call of `read`. There are no bytes for a call that asks for none, and none after the last. -/
def Socket.read (socket : Socket) (count : ℕ) : ReadResult × Socket :=
  match socket.arrivals 0 with
  | .again => (.again, socket.after 0)
  | .failed => (.failed, socket.after 0)
  | .upTo n =>
    let piece := socket.stream.take (min (n + 1) count)
    (.bytes piece, socket.after piece.length)

/-! ## The loop -/

/-- Source: `communicator.cpp`, `max_packet_size` -/
def maxPacketSize : ℕ := 8192

/-- The bytes that `read` leaves in the buffer, if there is room for them. -/
def writeAt (buf : List Byte) (at_ : ℕ) (piece : List Byte) : Option (List Byte) :=
  if at_ + piece.length ≤ buf.length then
    some (buf.take at_ ++ piece ++ buf.drop (at_ + piece.length))
  else none

/-- The string at the start of the buffer. -/
def cString (buf : List Byte) : Option (List Byte) :=
  if 0 ∈ buf then some (buf.takeWhile fun c => c ≠ 0) else none

/-- How far the loop gets. -/
inductive Reading
  | running
  | overrun
  | ended (buf : List Byte) (dataLen : ℕ) (readLen : Int)

/-- The loop, for at most `fuel` calls of `read`.
Source: `communicator.cpp`, `PlainCommunicator::read_event` -/
def readLoop : ℕ → Socket → List Byte → ℕ → Reading
  | 0, _, _, _ => .running
  | fuel + 1, socket, buf, dataLen =>
    -- the number of bytes is a `size_t`
    match socket.read (((maxPacketSize : Int) - dataLen) % 18446744073709551616).toNat with
    | (.again, socket') => readLoop fuel socket' buf dataLen
    | (.failed, _) => .ended buf dataLen (-1)
    | (.bytes piece, socket') =>
      match writeAt buf dataLen piece with
      | none => .overrun
      | some buf =>
        let readLen := piece.length
        if readLen = 0 then .ended buf dataLen 0
        else if maxPacketSize < readLen + dataLen then .ended buf (dataLen + readLen) readLen
        else
          match (List.range readLen).find? fun i => buf.getD (dataLen + i) 0 = 0 with
          | some i => .ended buf (dataLen + (i + 1)) readLen
          | none => readLoop fuel socket' buf (dataLen + readLen)

/-- What `read_event` does: it returns a code, and the query of the event if there is one. -/
inductive ReadEvent
  | running
  | overrun
  | returned (rc : RC) (query : Option (List Byte))

/-- What is returned behind the loop. Source: `communicator.cpp`, `PlainCommunicator::read_event` -/
def Reading.event : Reading → ReadEvent
  | .running => .running
  | .overrun => .overrun
  | .ended buf dataLen readLen =>
    if maxPacketSize < dataLen then .returned .ioerr none
    else if readLen = 0 then .returned .ioerr none
    else if readLen < 0 then .returned .ioerr none
    else
      match cString buf with
      | none => .overrun
      | some query => .returned .success (some query)

/-- Source: `communicator.cpp`, `PlainCommunicator::read_event` -/
def readEvent (fuel : ℕ) (socket : Socket) : ReadEvent :=
  (readLoop fuel socket (List.replicate maxPacketSize 0) 0).event

/-! ## One call of `read` -/

/-- What the bytes of a client amount to: the query before the first zero, if that is not too far
behind. -/
def answer (stream : List Byte) : ReadEvent :=
  if 0 ∈ stream.take maxPacketSize then .returned .success (some (stream.takeWhile fun c => c ≠ 0))
  else .returned .ioerr none

/-- The buffer after these bytes have been read. -/
def filled (seen : List Byte) : List Byte :=
  seen ++ List.replicate (maxPacketSize - seen.length) 0

variable {seen piece rest : List Byte} {socket : Socket}

/-- The next bytes are written behind those that have been read. -/
theorem writeAt_filled (h : seen.length + piece.length ≤ maxPacketSize) :
    writeAt (filled seen) seen.length piece = some (filled (seen ++ piece)) := by
  unfold writeAt filled
  rw [if_pos (by rw [List.length_append, List.length_replicate]; omega), List.take_left,
    List.drop_append, List.drop_of_length_le (by omega), List.drop_replicate, List.length_append,
    List.nil_append]
  congr 3
  omega

/-- The loop over a piece looks for a zero in it. -/
theorem find_zero_eq_none_iff :
    ((List.range piece.length).find? fun i =>
      (filled (seen ++ piece)).getD (seen.length + i) 0 = 0) = none ↔ 0 ∉ piece := by
  have hget : ∀ i, i < piece.length →
      (filled (seen ++ piece)).getD (seen.length + i) 0 = piece.getD i 0 := by
    intro i hi
    unfold filled
    rw [List.append_assoc, List.getD_append_right _ _ _ _ (by omega), Nat.add_sub_cancel_left,
      List.getD_append _ _ _ _ hi]
  rw [List.find?_eq_none]
  constructor
  · intro h hmem
    obtain ⟨i, hi, hzero⟩ := List.getElem_of_mem hmem
    refine h i (List.mem_range.mpr hi) ?_
    rw [decide_eq_true_eq, hget i hi, List.getD_eq_getElem _ _ hi, hzero]
  · intro h i hi hzero
    have hi := List.mem_range.mp hi
    rw [decide_eq_true_eq, hget i hi, List.getD_eq_getElem _ _ hi] at hzero
    exact h (hzero ▸ List.getElem_mem hi)

/-- The query, once a zero has been read. -/
theorem cString_filled (h : 0 ∈ seen) :
    cString (filled seen) = some ((seen ++ rest).takeWhile fun c => c ≠ 0) := by
  obtain ⟨a, b, rfl, ha⟩ := List.eq_append_cons_of_mem h
  have hcut : ∀ rest : List Byte, (a ++ 0 :: b ++ rest).takeWhile (fun c => c ≠ 0) = a := by
    intro rest
    rw [List.append_assoc, List.takeWhile_append_of_pos, List.cons_append,
      List.takeWhile_cons_of_neg (by simp), List.append_nil]
    exact fun c hc => decide_eq_true fun hzero => ha (hzero ▸ hc)
  unfold cString filled
  rw [if_pos (List.mem_append_left _ h), hcut, hcut]

/-- Without a zero among its first bytes a stream has no query. -/
theorem answer_of_notMem (hseen : 0 ∉ seen) (h : rest = [] ∨ seen.length = maxPacketSize) :
    answer (seen ++ rest) = .returned .ioerr none := by
  unfold answer
  refine if_neg fun hmem => hseen ?_
  rcases h with rfl | hlen
  · rw [List.append_nil] at hmem
    exact List.mem_of_mem_take hmem
  · rwa [← hlen, List.take_left] at hmem

/-- The query ends at a zero that is not too far behind. -/
theorem answer_of_mem (h : 0 ∈ seen) (hlen : seen.length ≤ maxPacketSize) :
    answer (seen ++ rest) =
      .returned .success (some ((seen ++ rest).takeWhile fun c => c ≠ 0)) := by
  unfold answer
  refine if_pos ?_
  rw [List.take_append, List.take_of_length_le hlen]
  exact List.mem_append_left _ h

/-! ## The loop over the pieces -/

/-- A call that asks for the room in the buffer, and finds nothing yet. -/
theorem readLoop_again (h : socket.arrivals 0 = .again) (fuel : ℕ) (buf : List Byte) (dataLen : ℕ) :
    readLoop (fuel + 1) socket buf dataLen = readLoop fuel (socket.after 0) buf dataLen := by
  rw [readLoop, Socket.read, h]

/-- A call that asks for the room in the buffer, and returns bytes. -/
theorem readLoop_bytes {socket' : Socket} (hroom : seen.length + piece.length ≤ maxPacketSize)
    (hread : socket.read (maxPacketSize - seen.length) = (.bytes piece, socket')) (fuel : ℕ) :
    readLoop (fuel + 1) socket (filled seen) seen.length =
      if piece.length = 0 then .ended (filled (seen ++ piece)) seen.length 0
      else
        match (List.range piece.length).find? fun i =>
          (filled (seen ++ piece)).getD (seen.length + i) 0 = 0 with
        | some i => .ended (filled (seen ++ piece)) (seen.length + (i + 1)) piece.length
        | none => readLoop fuel socket' (filled (seen ++ piece)) (seen.length + piece.length) := by
  have hcount : (((maxPacketSize : Int) - seen.length) % 18446744073709551616).toNat =
      maxPacketSize - seen.length := by
    unfold maxPacketSize at hroom ⊢
    omega
  rw [readLoop, hcount, hread]
  dsimp only
  rw [writeAt_filled hroom]
  dsimp only
  rw [if_neg (by omega : ¬ maxPacketSize < piece.length + seen.length)]

/-- A piece with a zero gives the answer. -/
theorem event_bytes {socket' : Socket} (hroom : seen.length + piece.length ≤ maxPacketSize)
    (hread : socket.read (maxPacketSize - seen.length) = (.bytes piece, socket'))
    (hzero : 0 ∈ piece) (rest : List Byte) (fuel : ℕ) :
    (readLoop (fuel + 1) socket (filled seen) seen.length).event =
      answer (seen ++ piece ++ rest) := by
  have hmem : 0 ∈ seen ++ piece := List.mem_append_right _ hzero
  have hpos := List.length_pos_of_mem hzero
  obtain ⟨i, hi⟩ := Option.ne_none_iff_exists'.mp
    fun hnone => find_zero_eq_none_iff.mp hnone hzero
  have hlt : i < piece.length := List.mem_range.mp (List.mem_of_find?_eq_some hi)
  rw [readLoop_bytes hroom hread, if_neg (by omega), hi]
  dsimp only [Reading.event]
  rw [if_neg (by omega), if_neg (by omega), if_neg (by omega), cString_filled hmem,
    answer_of_mem hmem (by simpa using hroom)]

/-- A call that returns bytes. Either the answer is found, or the loop goes on behind a piece
without a zero. -/
theorem readLoop_upTo {n : ℕ} (h : socket.arrivals 0 = .upTo n) (hseen : 0 ∉ seen)
    (hlen : seen.length ≤ maxPacketSize) :
    (∀ fuel, (readLoop (fuel + 1) socket (filled seen) seen.length).event =
      answer (seen ++ socket.stream)) ∨
    ∃ piece, piece ≠ [] ∧ 0 ∉ seen ++ piece ∧ (seen ++ piece).length ≤ maxPacketSize ∧
      socket.stream = piece ++ (socket.after piece.length).stream ∧
      ∀ fuel, readLoop (fuel + 1) socket (filled seen) seen.length =
        readLoop fuel (socket.after piece.length) (filled (seen ++ piece))
          (seen ++ piece).length := by
  set piece := socket.stream.take (min (n + 1) (maxPacketSize - seen.length)) with hpiece
  have hroom : seen.length + piece.length ≤ maxPacketSize := by
    rw [hpiece, List.length_take]
    omega
  have hread : socket.read (maxPacketSize - seen.length) =
      (.bytes piece, socket.after piece.length) := by
    rw [Socket.read, h]
  have hstream : socket.stream = piece ++ (socket.after piece.length).stream := by
    obtain ⟨rest, hrest⟩ := List.take_prefix (min (n + 1) (maxPacketSize - seen.length))
      socket.stream
    rw [← hpiece] at hrest
    unfold Socket.after
    rw [← hrest, List.drop_left]
  by_cases hnil : piece = []
  · left
    intro fuel
    rw [readLoop_bytes hroom hread, if_pos (by rw [hnil]; rfl), answer_of_notMem hseen]
    · dsimp only [Reading.event]
      rw [if_neg (by omega), if_pos rfl]
    · rw [hpiece, List.take_eq_nil_iff] at hnil
      rcases hnil with hfull | hempty
      · right
        omega
      · exact .inl hempty
  by_cases hzero : 0 ∈ piece
  · left
    intro fuel
    rw [event_bytes hroom hread hzero (socket.after piece.length).stream, List.append_assoc,
      ← hstream]
  · right
    have hpos := List.length_pos_of_ne_nil hnil
    refine ⟨piece, hnil, by simp [hseen, hzero], by simpa using hroom, hstream, fun fuel => ?_⟩
    rw [readLoop_bytes hroom hread, if_neg (by omega), find_zero_eq_none_iff.mpr hzero,
      List.length_append]

/-! ## Whole requests -/

/-- Whatever the pieces are, nothing but the answer is returned. By induction on the calls. -/
theorem readLoop_event (fuel : ℕ) (seen : List Byte) (hseen : 0 ∉ seen)
    (hlen : seen.length ≤ maxPacketSize)
    (hdeliver : ∀ i, socket.arrivals i ≠ .failed) :
    (readLoop fuel socket (filled seen) seen.length).event = .running ∨
      (readLoop fuel socket (filled seen) seen.length).event = answer (seen ++ socket.stream) := by
  induction fuel generalizing seen socket with
  | zero => exact .inl rfl
  | succ fuel ih =>
    cases harrival : socket.arrivals 0 with
    | again =>
      rw [readLoop_again harrival]
      exact ih seen hseen hlen fun i => hdeliver (i + 1)
    | failed => exact absurd harrival (hdeliver 0)
    | upTo n =>
      obtain hfound | ⟨piece, -, hseen', hlen', hstream, hnext⟩ := readLoop_upTo harrival hseen hlen
      · exact .inr (hfound fuel)
      · rw [hnext, hstream, ← List.append_assoc]
        exact ih _ hseen' hlen' fun i => hdeliver (i + 1)

/-- The calls up to the next one that does not return `EAGAIN`. By induction on their number. -/
theorem readLoop_skip (k : ℕ) (h : ∀ i < k, socket.arrivals i = .again) (fuel : ℕ)
    (buf : List Byte) (dataLen : ℕ) :
    readLoop (fuel + k) socket buf dataLen =
      readLoop fuel ⟨socket.stream, fun i => socket.arrivals (i + k)⟩ buf dataLen := by
  induction k generalizing socket with
  | zero => rfl
  | succ k ih =>
    rw [← Nat.add_assoc, readLoop_again (h 0 k.succ_pos), ih fun i hi => h (i + 1) (by omega)]
    simp only [Socket.after, List.drop_zero, Nat.add_assoc]

/-- If `EAGAIN` does not come for ever, the answer is returned. By induction on the room in the
buffer, which every piece makes smaller. -/
theorem exists_readLoop_event (seen : List Byte) (hseen : 0 ∉ seen)
    (hlen : seen.length ≤ maxPacketSize) (hdeliver : ∀ i, socket.arrivals i ≠ .failed)
    (hstops : ∀ i, ∃ j, i ≤ j ∧ socket.arrivals j ≠ .again) :
    ∃ fuel, (readLoop fuel socket (filled seen) seen.length).event =
      answer (seen ++ socket.stream) := by
  induction hroom : maxPacketSize - seen.length using Nat.strong_induction_on
    generalizing seen socket with
  | _ room ih =>
    have hex : ∃ j, socket.arrivals j ≠ .again := (hstops 0).imp fun j hj => hj.2
    set k := Nat.find hex
    have hskip : ∀ i < k, socket.arrivals i = .again := fun i hi => not_not.mp (Nat.find_min hex hi)
    set next : Socket := ⟨socket.stream, fun i => socket.arrivals (i + k)⟩ with hnext
    have hshift : ∀ i, ∃ j, i ≤ j ∧ next.arrivals (j + 1) ≠ .again := by
      intro i
      obtain ⟨j, hj, hne⟩ := hstops (i + 1 + k)
      refine ⟨j - k - 1, by omega, ?_⟩
      rw [hnext]
      dsimp only
      rwa [show j - k - 1 + 1 + k = j by omega]
    cases harrival : next.arrivals 0 with
    | again =>
      have hne : socket.arrivals (0 + k) ≠ .again := by
        rw [Nat.zero_add]
        exact Nat.find_spec hex
      exact absurd harrival hne
    | failed => exact absurd harrival (hdeliver (0 + k))
    | upTo n =>
      obtain hfound | ⟨piece, hne, hseen', hlen', hstream, hgo⟩ := readLoop_upTo harrival hseen hlen
      · exact ⟨0 + 1 + k, by rw [readLoop_skip k hskip, hfound 0]⟩
      · have hpos := List.length_pos_of_ne_nil hne
        have hdeliver' : ∀ i, (next.after piece.length).arrivals i ≠ .failed :=
          fun i => hdeliver (i + 1 + k)
        have hroom' : maxPacketSize - (seen ++ piece).length < room := by
          rw [List.length_append] at hlen' ⊢
          omega
        obtain ⟨fuel, hfuel⟩ := ih _ hroom' _ hseen' hlen' hdeliver' hshift rfl
        refine ⟨fuel + 1 + k, ?_⟩
        rw [readLoop_skip k hskip, hgo, hfuel, List.append_assoc, ← hstream]

/-- **Reading a request does not depend on its pieces**: in any number of calls the answer to the
bytes is returned or the loop is still running, and it ends if `read` stops returning `EAGAIN`. -/
theorem readEvent_eq (socket : Socket) (hdeliver : ∀ i, socket.arrivals i ≠ .failed) :
    (∀ fuel, readEvent fuel socket = .running ∨ readEvent fuel socket = answer socket.stream) ∧
      ((∀ i, ∃ j, i ≤ j ∧ socket.arrivals j ≠ .again) →
        ∃ fuel, readEvent fuel socket = answer socket.stream) :=
  ⟨fun fuel => readLoop_event fuel [] List.not_mem_nil (Nat.zero_le _) hdeliver,
    fun hstops =>
      exists_readLoop_event [] List.not_mem_nil (Nat.zero_le _) hdeliver hstops⟩

/-- A query in pieces of one byte, each of them after an `EAGAIN`. -/
theorem readEvent_eq_bytes :
    ∃ fuel, readEvent fuel ⟨[65, 66, 0, 67], fun i => if i % 2 = 0 then .again else .upTo 0⟩ =
      .returned .success (some [65, 66]) := by
  refine (readEvent_eq ⟨[65, 66, 0, 67], fun i => if i % 2 = 0 then .again else .upTo 0⟩ ?_).2 ?_
  · intro i
    dsimp only
    split <;> exact nofun
  · intro i
    refine ⟨2 * i + 1, by omega, ?_⟩
    dsimp only
    rw [if_neg (by omega)]
    exact nofun

end Miniob.Net
