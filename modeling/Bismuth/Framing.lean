import Bismuth.Lib.Run
import Bismuth.Py.Bytes
import Bismuth.Py.ReadBack

/-!
# Framing

`connections.py`: a message is JSON text behind its length in ten digits. The receiver reads the header and the body
in loops over partial reads. The bytes arrive in segments, of which a `recv` sees the first one; what `poll` reports
and how JSON is written are inputs.
-/

namespace Bismuth
open Py

namespace Framing

/-! ## Sockets -/

/-- What `poll` reports of a socket: that it can be read, or an error. -/
structure Flags where
  read : Bool
  error : Bool
  deriving DecidableEq

/-- A connected socket: the segments that are still to be read, and what each poll from now on reports, none after
the timeout. -/
structure Sock where
  chunks : List Bytes
  polls : Nat → Option Flags

/-- What ends a `receive`, as the text behind `Connections:`. -/
inductive Failure where
  -- "Socket POLLHUP", also in the header and in the body
  | hangup
  -- "Socket EOF"
  | eof
  -- "Socket Timeout header", "Socket Timeout2"
  | timeout
  -- "Socket Unexpected Error: …", "Socket Error …"
  | unexpected
  -- "invalid literal for int() …"
  | header
  -- "Invalid data length: …"
  | negative
  -- "Data too large: … bytes"
  | tooLarge
  -- the payload is no JSON text in UTF-8
  | payload
  deriving DecidableEq

abbrev Receive := Run Failure Sock

def fail {α : Type} (e : Failure) : Receive α := Run.lift (.error e)

def poll : Receive (Option Flags) := fun s => (.ok (s.polls 0), { s with polls := fun k => s.polls (k + 1) })

/-- `recv(n)`: at most `n` bytes of the first segment, none at the end of the stream. -/
def recv (n : Nat) : Receive Bytes := fun s =>
  match s.chunks with
  | [] => (.ok [], s)
  | c :: cs => (.ok (c.take n), { s with chunks := if c.length ≤ n then cs else c.drop n :: cs })

def await : Receive Unit := do
  match ← poll with
  | none => fail .timeout
  | some flag =>
    if flag.error && !flag.read then fail .hangup
    else if flag.read then pure () else fail .unexpected

/-! ## Messages -/

/-- How the messages are written as JSON text and read. -/
structure Json (α : Type) where
  dumps : α → Text
  loads : Text → Option α
  loads_dumps : ∀ a, loads (dumps a) = some a

def slen : Nat := 10

def maxPayload : Nat := 100 * 1024 * 1024

/-- `int(b)`: bytes beyond ASCII are no digits. -/
def intOfBytes (b : Bytes) : Except (Exc Empty) Int :=
  if b.all (·.toNat < 128) then int (b.map fun c => Char.ofNat c.toNat) else .error .valueError

section Send
variable {α : Type} (J : Json α)

def encoded (a : α) : Bytes := utf8 (J.dumps a)

/-- The header of a payload of `n` bytes. -/
def header (n : Nat) : Bytes := utf8 (zeroPad slen (natText n))

/-- `send`: what is written to the socket. -/
def send (a : α) : Bytes := header (encoded J a).length ++ encoded J a

/-- The loop that reads the header. Every round reads a byte, so that `fuel` rounds are enough for `fuel` bytes. -/
def readHeader : (fuel : Nat) → Bytes → Receive Bytes
  | 0, header => pure header
  | fuel + 1, header =>
    if slen ≤ header.length then pure header
    else do
      let chunk ← recv (slen - header.length)
      if chunk = [] then fail .eof
      else do
        (if (header ++ chunk).length < slen then await else pure ())
        readHeader fuel (header ++ chunk)

def readBody (dataLen : Nat) : (fuel : Nat) → Bytes → Receive Bytes
  | 0, body => pure body
  | fuel + 1, body =>
    if dataLen ≤ body.length then pure body
    else do
      await
      let chunk ← recv (min (dataLen - body.length) 8192)
      if chunk = [] then fail .eof
      else readBody dataLen fuel (body ++ chunk)

/-- `_validate_data_len` of the length that the header declares. -/
def dataLen (header : Bytes) : Except Failure Nat :=
  match intOfBytes header with
  | .error _ => .error .header
  | .ok n => if n < 0 then .error .negative else if (maxPayload : Int) < n then .error .tooLarge else .ok n.toNat

/-- `receive`, in which none is the logical timeout. -/
def receive : Receive (Option α) := do
  match ← poll with
  | none => return none
  | some flag =>
    if flag.error && !flag.read then fail .hangup
    else if flag.read then do
      let header ← readHeader slen []
      let n ← Run.lift (dataLen header)
      let body ← readBody n n []
      match (utf8Decode body).bind J.loads with
      | some a => return some a
      | none => fail .payload
    else fail .unexpected

/-- As many calls of `receive`. -/
def receives : Nat → Receive (List (Option α))
  | 0 => pure []
  | n + 1 => do
    let a ← receive J
    return a :: (← receives n)

end Send

/-! ## A stream that neither times out nor errors -/

/-- The bytes that are still to come are `b`, in segments that are not empty, and every poll reports something to
read. -/
structure Flows (s : Sock) (b : Bytes) : Prop where
  bytes : s.chunks.flatten = b
  chunks : ∀ c ∈ s.chunks, c ≠ []
  ready : ∀ k, ∃ e, s.polls k = some ⟨true, e⟩

section Flows
variable {s : Sock} {b : Bytes}

theorem poll_flows (h : Flows s b) : ∃ e s', poll s = (.ok (some ⟨true, e⟩), s') ∧ Flows s' b := by
  obtain ⟨e, he⟩ := h.ready 0
  refine ⟨e, _, Prod.ext (congrArg Except.ok he) rfl, h.bytes, h.chunks, fun k => h.ready (k + 1)⟩

theorem await_flows (h : Flows s b) : ∃ s', await s = (.ok (), s') ∧ Flows s' b := by
  obtain ⟨e, s', hpoll, hs'⟩ := poll_flows h
  refine ⟨s', Run.bind_eq_ok.2 ⟨_, s', hpoll, ?_⟩, hs'⟩
  simp [Run.pure_apply]

theorem recv_flows (h : Flows s b) (hb : b ≠ []) {n : Nat} (hn : 0 < n) :
    ∃ c rest s', recv n s = (.ok c, s') ∧ b = c ++ rest ∧ c ≠ [] ∧ c.length ≤ n ∧ Flows s' rest := by
  obtain ⟨hbytes, hchunks, hready⟩ := h
  rw [recv]
  cases hc : s.chunks with
  | nil =>
    rw [hc] at hbytes
    exact absurd hbytes.symm hb
  | cons c cs =>
    rw [hc] at hbytes hchunks
    have hne := hchunks c (by simp)
    have hcs : ∀ d ∈ cs, d ≠ [] := fun d hd => hchunks d (by simp [hd])
    have hbytes' : b = c.take n ++ (c.drop n ++ cs.flatten) := by
      rw [← List.append_assoc, List.take_append_drop, ← hbytes, List.flatten_cons]
    refine ⟨c.take n, _, _, rfl, hbytes', ?_, List.length_take_le n c, ?_, ?_, hready⟩
    · rw [Ne, List.take_eq_nil_iff, not_or]
      exact ⟨hn.ne', hne⟩
    · dsimp only
      split
      · rename_i hle
        rw [List.drop_of_length_le hle, List.nil_append]
      · rw [List.flatten_cons]
    · dsimp only
      split
      · exact hcs
      · rename_i hlt
        intro d hd
        obtain rfl | hd := List.mem_cons.1 hd
        · rw [Ne, List.drop_eq_nil_iff]
          exact hlt
        · exact hcs d hd

variable {part rest : Bytes}

theorem recv_part (h : Flows s (part ++ rest)) {n : Nat} (hn : 0 < n) (hle : n ≤ part.length) :
    ∃ c part' s', recv n s = (.ok c, s') ∧ part = c ++ part' ∧ 0 < c.length ∧ Flows s' (part' ++ rest) := by
  have hb : part ++ rest ≠ [] := fun he => by
    rw [(List.append_eq_nil_iff.1 he).1, List.length_nil] at hle
    omega
  obtain ⟨c, rest', s', hrecv, heq, hc, hlen, hs'⟩ := recv_flows h hb hn
  obtain ⟨part', hpart, rfl⟩ : ∃ part', part = c ++ part' ∧ rest' = part' ++ rest := by
    obtain ⟨d, hd, hrest⟩ | ⟨d, hd, hrest⟩ := List.append_eq_append_iff.1 heq
    · have hnil : d = [] := List.length_eq_zero_iff.1 (by rw [hd, List.length_append] at hlen; omega)
      subst hnil
      exact ⟨[], by simpa using hd.symm, by simpa using hrest.symm⟩
    · exact ⟨d, hd, hrest⟩
  exact ⟨c, part', s', hrecv, hpart, List.length_pos_of_ne_nil hc, hs'⟩

/-- The header is read whole, however it is cut. -/
theorem readHeader_flows {fuel : Nat} (got : Bytes) (hs : Flows s (part ++ rest))
    (hlen : got.length + part.length = slen) (hfuel : part.length ≤ fuel) :
    ∃ s', readHeader fuel got s = (.ok (got ++ part), s') ∧ Flows s' rest := by
  induction fuel generalizing s got part with
  | zero =>
    obtain rfl := List.length_eq_zero_iff.1 (Nat.le_zero.1 hfuel)
    exact ⟨s, by rw [readHeader, List.append_nil, Run.pure_apply], hs⟩
  | succ fuel ih =>
    rw [readHeader]
    split
    · rename_i hfull
      obtain rfl := List.length_eq_zero_iff.1 (by omega : part.length = 0)
      exact ⟨s, by rw [List.append_nil, Run.pure_apply], hs⟩
    · rename_i hshort
      obtain ⟨c, part, s₁, hrecv, rfl, hc, hs₁⟩ := recv_part hs (n := slen - got.length) (by omega) (by omega)
      rw [List.length_append] at hlen hfuel
      have hwait : ∃ s₂, (if (got ++ c).length < slen then await else pure ()) s₁ = (.ok (), s₂) ∧
          Flows s₂ (part ++ rest) := by
        split
        · exact await_flows hs₁
        · exact ⟨s₁, rfl, hs₁⟩
      obtain ⟨s₂, hwait, hs₂⟩ := hwait
      have hnext : (got ++ c).length + part.length = slen := by rw [List.length_append]; omega
      obtain ⟨s₃, hrun, hs₃⟩ := ih _ hs₂ hnext (by omega)
      refine ⟨s₃, Run.bind_eq_ok.2 ⟨c, s₁, hrecv, ?_⟩, hs₃⟩
      rw [if_neg (List.ne_nil_of_length_pos hc), ← List.append_assoc]
      exact Run.bind_eq_ok.2 ⟨(), s₂, hwait, hrun⟩

theorem readBody_flows {dataLen fuel : Nat} (got : Bytes) (hs : Flows s (part ++ rest))
    (hlen : got.length + part.length = dataLen) (hfuel : part.length ≤ fuel) :
    ∃ s', readBody dataLen fuel got s = (.ok (got ++ part), s') ∧ Flows s' rest := by
  induction fuel generalizing s got part with
  | zero =>
    obtain rfl := List.length_eq_zero_iff.1 (Nat.le_zero.1 hfuel)
    exact ⟨s, by rw [readBody, List.append_nil, Run.pure_apply], hs⟩
  | succ fuel ih =>
    rw [readBody]
    split
    · rename_i hfull
      obtain rfl := List.length_eq_zero_iff.1 (by omega : part.length = 0)
      exact ⟨s, by rw [List.append_nil, Run.pure_apply], hs⟩
    · rename_i hshort
      obtain ⟨s₁, hwait, hs₁⟩ := await_flows hs
      obtain ⟨c, part, s₂, hrecv, rfl, hc, hs₂⟩ := recv_part hs₁ (n := min (dataLen - got.length) 8192)
        (by omega) (by omega)
      rw [List.length_append] at hlen hfuel
      have hnext : (got ++ c).length + part.length = dataLen := by rw [List.length_append]; omega
      obtain ⟨s₃, hrun, hs₃⟩ := ih _ hs₂ hnext (by omega)
      refine ⟨s₃, Run.bind_eq_ok.2 ⟨(), s₁, hwait, Run.bind_eq_ok.2 ⟨c, s₂, hrecv, ?_⟩⟩, hs₃⟩
      rw [if_neg (List.ne_nil_of_length_pos hc), ← List.append_assoc]
      exact hrun

end Flows

/-! ## Headers -/

theorem utf8_of_ascii {t : Text} (h : ∀ c ∈ t, c.toNat < 128) : utf8 t = t.map fun c => UInt8.ofNat c.toNat := by
  induction t with
  | nil => rfl
  | cons c t ih =>
    have hc := h c (by simp)
    have hone : String.utf8EncodeChar c = [UInt8.ofNat c.toNat] := by
      rw [String.utf8EncodeChar, if_pos (by exact Nat.le_of_lt_succ hc)]
      rfl
    rw [utf8, List.flatMap_cons, ← utf8, ih fun c hc => h c (by simp [hc]), List.map_cons, hone, List.singleton_append]

theorem toNat_lt_of_isDigit {c : Char} (h : c.isDigit) : c.toNat < 128 := by
  simp only [Char.isDigit, Bool.and_eq_true, decide_eq_true_eq, UInt32.le_iff_toNat_le] at h
  exact lt_of_le_of_lt h.2 (by decide)

theorem header_eq (n : Nat) : header n = (zeroPad slen (natText n)).map fun c => UInt8.ofNat c.toNat :=
  utf8_of_ascii fun _ hc => toNat_lt_of_isDigit (isDigit_of_mem_zeroPad hc)

theorem length_header {n : Nat} (h : n ≤ maxPayload) : (header n).length = slen := by
  rw [header_eq, List.length_map, length_zeroPad]
  exact (length_natText_le_iff (by decide)).2 (lt_of_le_of_lt h (by decide))

theorem int_zeroPad (k n : Nat) : (int (zeroPad k (natText n)) : Except (Exc Empty) Int) = .ok n := by
  have hdigit : ∀ c ∈ zeroPad k (natText n), c.isDigit := fun c hc => isDigit_of_mem_zeroPad hc
  have hplain : ∀ c ∈ zeroPad k (natText n), isPlain c := fun c hc => isPlain_of_isDigit (hdigit c hc)
  have hne : zeroPad k (natText n) ≠ [] := by
    rw [zeroPad, Ne, List.append_eq_nil_iff]
    exact fun h => natText_ne_nil n h.2
  simp only [int, floatAscii_plain hplain, Option.bind_eq_bind, Option.bind_some, dropUnderscores_plain hplain,
    signOf_digit hdigit]
  rw [if_pos ⟨hne, List.all_eq_true.2 hdigit⟩, digitsVal_zeroPad, digitsVal_natText]
  rfl

theorem intOfBytes_header (n : Nat) : intOfBytes (header n) = .ok n := by
  have hascii : ∀ c ∈ zeroPad slen (natText n), c.toNat < 128 :=
    fun c hc => toNat_lt_of_isDigit (isDigit_of_mem_zeroPad hc)
  have hbyte : ∀ c : Char, c.toNat < 128 → (UInt8.ofNat c.toNat).toNat = c.toNat := by
    intro c hc
    rw [UInt8.toNat_ofNat']
    omega
  have hall : (header n).all (·.toNat < 128) = true := by
    rw [header_eq, List.all_map, List.all_eq_true]
    intro c hc
    simpa [hbyte c (hascii c hc)] using hascii c hc
  have hback : ((header n).map fun c => Char.ofNat c.toNat) = zeroPad slen (natText n) := by
    rw [header_eq, List.map_map]
    refine (List.map_congr_left fun c hc => ?_).trans (List.map_id _)
    rw [Function.comp_apply, hbyte c (hascii c hc), Char.ofNat_toNat, id]
  rw [intOfBytes, if_pos hall, hback, int_zeroPad]

theorem dataLen_header {n : Nat} (h : n ≤ maxPayload) : dataLen (header n) = .ok n := by
  have hle : ¬(maxPayload : Int) < n := by exact_mod_cast h.not_gt
  rw [dataLen, intOfBytes_header]
  dsimp only
  rw [if_neg (by omega), if_neg hle, Int.toNat_natCast]

/-! ## Messages, one after the other -/

section Messages
variable {α : Type} {J : Json α} {s : Sock} {rest : Bytes}

/-- One call returns the first message and leaves what follows it. -/
theorem receive_flows {a : α} (ha : (encoded J a).length ≤ maxPayload) (h : Flows s (send J a ++ rest)) :
    ∃ s', receive J s = (.ok (some a), s') ∧ Flows s' rest := by
  rw [send, List.append_assoc] at h
  obtain ⟨e, s₁, hpoll, hs₁⟩ := poll_flows h
  obtain ⟨s₂, hheader, hs₂⟩ := readHeader_flows [] hs₁ (by rw [length_header ha, List.length_nil, zero_add])
    (length_header ha).le
  obtain ⟨s₃, hbody, hs₃⟩ := readBody_flows [] hs₂ (by rw [List.length_nil, zero_add]) le_rfl
  have hread : (utf8Decode (encoded J a)).bind J.loads = some a := by
    rw [encoded, utf8Decode_utf8, Option.bind_some, J.loads_dumps]
  refine ⟨s₃, Run.bind_eq_ok.2 ⟨_, s₁, hpoll, ?_⟩, hs₃⟩
  dsimp only
  rw [if_neg (by simp), if_pos rfl]
  refine Run.bind_eq_ok.2 ⟨_, s₂, hheader, Run.bind_eq_ok.2 ⟨_, s₂, Run.lift_eq_ok.2 ⟨dataLen_header ha, rfl⟩, ?_⟩⟩
  refine Run.bind_eq_ok.2 ⟨_, s₃, hbody, ?_⟩
  rw [List.nil_append, hread]
  rfl

/-- **Framing is proof against cuts.** Whatever segments the bytes of a sequence of messages arrive in, as many calls
of `receive` return these messages in order and leave exactly the bytes that follow them. -/
theorem receives_flows {as : List α} (has : ∀ a ∈ as, (encoded J a).length ≤ maxPayload)
    (h : Flows s (as.flatMap (send J) ++ rest)) :
    ∃ s', receives J as.length s = (.ok (as.map some), s') ∧ Flows s' rest := by
  induction as generalizing s with
  | nil => exact ⟨s, rfl, h⟩
  | cons a as ih =>
    rw [List.flatMap_cons, List.append_assoc] at h
    obtain ⟨s₁, hfirst, hs₁⟩ := receive_flows (has a (by simp)) h
    obtain ⟨s₂, hothers, hs₂⟩ := ih (fun a ha => has a (by simp [ha])) hs₁
    refine ⟨s₂, Run.bind_eq_ok.2 ⟨_, s₁, hfirst, Run.bind_eq_ok.2 ⟨_, s₂, hothers, rfl⟩⟩, hs₂⟩

end Messages

section Sample

private def plain : Json Text := ⟨id, some, fun _ => rfl⟩

private def messages : List Text := ["version".toList, "ok".toList]

/-- The first segment ends in the header of the first message, the third in that of the second. -/
private def segments : List Bytes := ["000".toList, "0000007ver".toList, "sion00000".toList, "00002ok".toList].map utf8

theorem receives_flows_sample :
    ∃ s', receives plain messages.length ⟨segments, fun _ => some ⟨true, false⟩⟩ = (.ok (messages.map some), s') ∧
      Flows s' [] := by
  have hmessages : ∀ a ∈ messages, (encoded plain a).length ≤ maxPayload := by decide +kernel
  have hflows : Flows ⟨segments, fun _ => some ⟨true, false⟩⟩ (messages.flatMap (send plain) ++ []) :=
    ⟨by decide +kernel, by decide +kernel, fun _ => ⟨false, rfl⟩⟩
  exact receives_flows hmessages hflows

end Sample

end Framing

end Bismuth
