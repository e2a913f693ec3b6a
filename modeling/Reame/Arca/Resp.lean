import Reame.Core.Backend
import Reame.Foundation.Wire

/-!
# RESP replies

The daemon answers every command with one reply: a simple string, an error, or a bulk
string that may be nil.  `readReply` is the client's reading of one, as a function of
the bytes received so far; since the client asks the socket for more only as long as
these do not decide, that is all `read_reply` is.

However the bytes of a reply are cut, no proper prefix decides (`readReply_part`) and
all of them give its value (`readReply_bytes`).
-/

namespace Reame.Arca

open Wire

/-- `resp_simple`. -/
def respSimple (s : Bytes) : Bytes := 43 :: (s ++ crlf)

/-- `resp_error`. -/
def respError (s : Bytes) : Bytes := 45 :: (s ++ crlf)

/-- `resp_bulk`. -/
def respBulk (s : Bytes) : Bytes := 36 :: (decimal s.length ++ crlf ++ (s ++ crlf))

/-- `resp_nil`. -/
def respNil : Bytes := 36 :: (ascii "-1" ++ crlf)

/-- A reply to a `GET` or a `SET`. -/
inductive Reply
  | ok
  | error (message : Bytes)
  | nil
  | bulk (data : Bytes)
deriving DecidableEq, Repr

/-- A reply on the wire. -/
def Reply.bytes : Reply → Bytes
  | .ok => respSimple (ascii "OK")
  | .error message => respError message
  | .nil => respNil
  | .bulk data => respBulk data

/-- What the client makes of a reply. -/
def Reply.value : Reply → Option Bytes
  | .ok => some []
  | .error _ => none
  | .nil => none
  | .bulk data => some data

/-- Replies the daemon can send: an error message is one line, and the length of a bulk
string is a `long`. -/
def Reply.WellFormed : Reply → Prop
  | .error message => 13 ∉ message
  | .bulk data => data.length < 2 ^ 63
  | _ => True

/-- What `read_reply` does with the bytes received so far. -/
inductive ReadStatus
  | more
  | reply (value : Option Bytes)
  | throws (fault : StolFault)
deriving DecidableEq, Repr

/-- `ArcaClient::Impl::read_reply`. -/
def readReply (buf : Bytes) : ReadStatus :=
  match findCrlf buf with
  | none => .more
  | some eol =>
      match buf with
      | 43 :: _ => .reply (some [])
      | 45 :: _ => .reply none
      | 36 :: rest =>
          match stol (rest.take (eol - 1)) with
          | .error fault => .throws fault
          | .ok n =>
              if n < 0 then .reply none
              else if (buf.length : ℤ) < eol + 2 + n + 2 then .more
              else .reply (some ((buf.drop (eol + 2)).take n.toNat))
      | _ => .reply none

/-- A header line that is not complete does not decide. -/
theorem readReply_header {line part : Bytes} (hline : 13 ∉ line) (hpart : part <+: line ++ crlf)
    (hlt : part.length < (line ++ crlf).length) : readReply part = .more := by
  rw [List.length_append] at hlt
  rw [readReply, findCrlf_part hline hpart hlt]

/-- Behind its header a bulk string decides as soon as all of it is there. -/
theorem readReply_bulk {data tail : Bytes} (hdata : data.length < 2 ^ 63)
    (htail : tail <+: data ++ crlf) :
    readReply (36 :: (decimal data.length ++ crlf ++ tail)) =
      if tail.length < data.length + 2 then .more else .reply (some data) := by
  have hheader : (13 : UInt8) ∉ 36 :: decimal data.length := by simp [cr_notMem_decimal]
  have hfind := findCrlf_line hheader tail
  rw [List.cons_append, List.cons_append] at hfind
  have hdigits : (decimal data.length ++ crlf ++ tail).take
      ((36 :: decimal data.length).length - 1) = decimal data.length := by
    rw [List.append_assoc, List.length_cons, Nat.add_sub_cancel, List.take_left]
  have hpayload : (36 :: (decimal data.length ++ crlf ++ tail)).drop
      ((36 :: decimal data.length).length + 2) = tail := by
    rw [← List.cons_append, ← List.cons_append]
    exact List.drop_left' (by simp [crlf])
  have hlength : (36 :: (decimal data.length ++ crlf ++ tail)).length =
      (36 :: decimal data.length).length + 2 + tail.length := by
    simp [crlf]
    omega
  simp only [readReply, hfind, hdigits, stol_decimal hdata, hpayload]
  rw [if_neg (by omega), hlength]
  by_cases hshort : tail.length < data.length + 2
  · rw [if_pos hshort, if_pos (by omega)]
  · have hwhole : tail = data ++ crlf := by
      refine htail.eq_of_length_le ?_
      simp only [List.length_append, crlf, List.length_cons, List.length_nil]
      omega
    rw [if_neg hshort, if_neg (by omega), hwhole, Int.toNat_natCast, List.take_left]

/-- All the bytes of a reply give its value. -/
theorem readReply_bytes {r : Reply} (hr : r.WellFormed) : readReply r.bytes = .reply r.value := by
  cases r with
  | ok => decide
  | error message =>
      have hline : (13 : UInt8) ∉ 45 :: message := by
        simp only [List.mem_cons, not_or]
        exact ⟨by decide, hr⟩
      have hfind := findCrlf_line hline []
      rw [List.append_nil, List.cons_append] at hfind
      simp [readReply, Reply.bytes, respError, hfind, Reply.value]
  | nil => decide
  | bulk data =>
      rw [Reply.bytes, respBulk, readReply_bulk hr List.prefix_rfl]
      simp [crlf, Reply.value]

/-- Less than all the bytes of a reply do not decide. -/
theorem readReply_part {r : Reply} (hr : r.WellFormed) {part : Bytes} (hpart : part <+: r.bytes)
    (hlt : part.length < r.bytes.length) : readReply part = .more := by
  cases r with
  | ok =>
      have hline : (13 : UInt8) ∉ 43 :: ascii "OK" := by decide
      exact readReply_header hline hpart hlt
  | error message =>
      have hline : (13 : UInt8) ∉ 45 :: message := by
        simp only [List.mem_cons, not_or]
        exact ⟨by decide, hr⟩
      exact readReply_header hline hpart hlt
  | nil =>
      have hline : (13 : UInt8) ∉ 36 :: ascii "-1" := by decide
      exact readReply_header hline hpart hlt
  | bulk data =>
      have hheader : (13 : UInt8) ∉ 36 :: decimal data.length := by simp [cr_notMem_decimal]
      have hbytes : (Reply.bulk data).bytes =
          ((36 :: decimal data.length) ++ crlf) ++ (data ++ crlf) :=
        rfl
      rw [hbytes] at hpart hlt
      rcases Nat.lt_or_ge part.length ((36 :: decimal data.length) ++ crlf).length with hshort | hlong
      · have hpre := List.prefix_of_prefix_length_le hpart (List.prefix_append _ _) hshort.le
        exact readReply_header hheader hpre hshort
      · obtain ⟨tail, rfl⟩ := List.prefix_of_prefix_length_le (List.prefix_append _ _) hpart hlong
        have htail : tail <+: data ++ crlf := (List.prefix_append_right_inj _).mp hpart
        have hmissing : tail.length < data.length + 2 := by
          simp only [List.length_append, crlf, List.length_cons, List.length_nil] at hlt
          omega
        exact (readReply_bulk hr htail).trans (if_pos hmissing)

end Reame.Arca
