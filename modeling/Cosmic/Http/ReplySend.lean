/-
A reply sent: what is written is its head, and a body that its framing delimits; or less, and then the
connection closes.
-/
import Cosmic.Http.ReplyHead
import Cosmic.Http.Session

set_option autoImplicit false

namespace Cosmic.Http

open Cosmic.Base List Option

/-! ## Pieces written -/

/-- Pieces of a body as they are written. -/
def pieces_text (chunked : Bool) (pieces : List Bytes) : Bytes :=
  pieces.flatMap fun piece => if chunked then chunk piece else piece

/-- A body that is written whole. -/
def whole_text (chunked : Bool) (pieces : List Bytes) : Bytes :=
  pieces_text chunked pieces ++ if chunked then LAST_CHUNK else []

def AtEnd (answers : List (Except Bytes Bytes)) : Prop := answers.head? = none ∨ answers.head? = some (.error [])

/-- How a copy of a Reader body goes: all of its pieces, or some of them and a failure. -/
inductive Copies (left : Option ℤ) (chunked : Bool) (answers : List (Except Bytes Bytes)) :
    Copied → Bytes → Prop
  | whole (pieces : List Bytes) {more : List (Except Bytes Bytes)}
      (hanswers : answers = pieces.map .ok ++ more) (hpieces : ∀ piece ∈ pieces, piece ≠ [])
      (hleft : ∀ n, left = some n → (pieces.flatten.length : ℤ) = n) (hend : left = none → AtEnd more) :
      Copies left chunked answers ⟨[], []⟩ (whole_text chunked pieces)
  | cut (pieces : List Bytes) {more : List (Except Bytes Bytes)} {copied : Copied} {out : Bytes}
      (hanswers : answers = pieces.map .ok ++ more) (hpieces : ∀ piece ∈ pieces, piece ≠ [])
      (hleft : ∀ n, left = some n → (pieces.flatten.length : ℤ) ≤ n) (hout : out <+: whole_text chunked pieces)
      (hcopied : copied.write_why ≠ [] ∨ copied.body_why ≠ []) : Copies left chunked answers copied out

section

variable {left : Option ℤ} {chunked : Bool} {answers : List (Except Bytes Bytes)} {copied : Copied}
  {piece out : Bytes}

theorem Copies.cons (hpiece : piece ≠ [])
    (h : Copies (left.map fun left => left - piece.length) chunked answers copied out) :
    Copies left chunked (.ok piece :: answers) copied ((if chunked then chunk piece else piece) ++ out) := by
  have hcount : ∀ pieces : List Bytes, ((piece :: pieces).flatten.length : ℤ) = piece.length + pieces.flatten.length := by
    intro pieces
    rw [flatten_cons, length_append]
    exact Int.natCast_add _ _
  have hsome : ∀ pieces : List Bytes, (∀ piece ∈ pieces, piece ≠ []) → ∀ p ∈ piece :: pieces, p ≠ [] := by
    intro pieces hpieces p hp
    rcases mem_cons.mp hp with rfl | hp
    · exact hpiece
    · exact hpieces p hp
  have htext : ∀ pieces : List Bytes, (if chunked then chunk piece else piece) ++ whole_text chunked pieces =
      whole_text chunked (piece :: pieces) := by
    intro pieces
    unfold whole_text pieces_text
    rw [flatMap_cons, append_assoc]
  cases h with
  | whole pieces hanswers hpieces hleft hend =>
    rw [htext]
    refine .whole (piece :: pieces) (by rw [hanswers]; rfl) (hsome _ hpieces) (fun n hn => ?_) (fun hnone => hend (by rw [hnone]; rfl))
    have hrest := hleft (n - piece.length) (by rw [hn]; rfl)
    rw [hcount]
    omega
  | cut pieces hanswers hpieces hleft hout hcopied =>
    refine .cut (piece :: _) (by rw [hanswers]; rfl) (hsome _ hpieces) (fun n hn => ?_) ?_ hcopied
    · have hrest := hleft (n - piece.length) (by rw [hn]; rfl)
      rw [hcount]
      omega
    · rw [← htext]
      exact (prefix_append_right_inj _).mpr hout

end

/-! ## Chunks read back -/

section

variable {limits : Limits} {ending : Bytes} {core : Core}

end

/-- The chunk decoder reads `data` of `body`, under bounds they keep, and stops at what follows. -/
def DecodesTo (body data : Bytes) : Prop :=
  ∀ (limits : Limits) (head : Head) (input : Input) (rest : Bytes) (sizes : List (Option ℕ+)),
    head.chunked = true → input.pending = body ++ rest → 17 ≤ limits.head_bytes →
    (head.spent : ℤ) ≤ limits.head_bytes → (data.length : ℤ) ≤ limits.body_bytes → data.length < sizes.length →
    ∃ now, (Http.body input head limits).reads sizes = some (data, true, now) ∧ now.state = .done ∧
      now.input.pending = rest

/-- The head of `reply`. -/
def reply_head (reply : Reply) : Bytes := head_text reply (reply_framing reply)

def Bare (reply : Reply) : Prop := reply.method = some (lit "HEAD") ∨ bodiless reply.status = true

/-- Pieces that a body gave, and those of a Reader that are not asked for. -/
inductive Gave : ReplyBody → List Bytes → List (Except Bytes Bytes) → Prop
  | none : Gave .none [] []
  | string (bytes : Bytes) : Gave (.string bytes) [bytes] []
  | reader (pieces : List Bytes) (more : List (Except Bytes Bytes)) :
      Gave (.reader (pieces.map .ok ++ more)) pieces more

/-- A whole reply: its head, and a body that its framing delimits to what the body gave. -/
inductive Whole (reply : Reply) : Bytes → Prop
  | bare (hbare : Bare reply) : Whole reply (reply_head reply)
  | length {pieces : List Bytes} {more : List (Except Bytes Bytes)} (hbare : ¬Bare reply)
      (hgave : Gave reply.body pieces more) (hplain : (reply_framing reply).chunked = false)
      (hlength : (reply_framing reply).length = some (pieces.flatten.length : ℤ)) :
      Whole reply (reply_head reply ++ pieces.flatten)
  | chunks {pieces : List Bytes} {more : List (Except Bytes Bytes)} {body : Bytes} (hbare : ¬Bare reply)
      (hgave : Gave reply.body pieces more) (hend : AtEnd more)
      (hlength : (reply_framing reply).length = none) (hchunked : (reply_framing reply).chunked = true)
      (hbody : Chunks body pieces.flatten)
      (hdecodes : (∀ piece ∈ pieces, piece.length < 16 ^ 15) → DecodesTo body pieces.flatten) :
      Whole reply (reply_head reply ++ body)
  | close {pieces : List Bytes} {more : List (Except Bytes Bytes)} (hbare : ¬Bare reply)
      (hgave : Gave reply.body pieces more) (hend : AtEnd more)
      (hlength : (reply_framing reply).length = none) (hplain : (reply_framing reply).chunked = false)
      (hclose : (reply_framing reply).close = true) : Whole reply (reply_head reply ++ pieces.flatten)

section

variable {reply : Reply}

end

end Cosmic.Http
