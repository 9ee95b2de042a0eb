/-
The grammar of CONNECT heads, and that the reader accepts exactly it.

A head is a request line, header lines and an empty line, every line ended by CRLF, within the caps and
with one Proxy-Authorization at most. What each line decides is said once, for the request line and for
a header line; heads are then read by induction on their headers, and found in what was read by
induction on the string.
-/
import Cosmic.Relay.ConnectHead

set_option autoImplicit false

namespace Cosmic.Wire

open Cosmic.Base Option Except

/-! ## Header lines -/

/-- A header line: its name, and what follows the colon. -/
structure Header where
  name : Bytes
  value : Bytes

def Header.text (h : Header) : Bytes := h.name ++ lit ":" ++ h.value

/-- The name is a token, and no byte of the value is a control byte other than a tab. -/
structure Header.Good (h : Header) : Prop where
  filled : h.name ≠ []
  token : ∀ b ∈ h.name, isToken b = true
  value : ∀ b ∈ h.value, isSpecial b = false

/-- What a Proxy-Authorization header says. -/
def Header.credential (h : Header) : Option Bytes :=
  if lower h.name = lit "proxy-authorization" then some (trimmed h.value) else none

def credentials (hs : List Header) : List Bytes := hs.filterMap Header.credential

def block (hs : List Header) : Bytes := hs.flatMap (fun h => h.text ++ CRLF) ++ CRLF

theorem block_cons (h : Header) (hs : List Header) : block (h :: hs) = h.text ++ CRLF ++ block hs := by
  simp [block]

theorem isToken_plain {b : UInt8} (h : isToken b = true) : isLineBlank b = false ∧ isSpecial b = false ∧ b ≠ 58 := by
  have hall : ∀ n < 256, isToken (UInt8.ofNat n) = true →
      isLineBlank (UInt8.ofNat n) = false ∧ isSpecial (UInt8.ofNat n) = false ∧ UInt8.ofNat n ≠ 58 := by
    decide +kernel
  have hb := hall b.toNat b.toNat_lt
  rw [UInt8.ofNat_toNat] at hb
  exact hb h

theorem Header.Good.text {h : Header} (hg : h.Good) : ∀ b ∈ h.text, isSpecial b = false := by
  intro b hb
  rcases List.mem_append.mp hb with hb | hb
  · rcases List.mem_append.mp hb with hb | hb
    · exact (isToken_plain (hg.token b hb)).2.1
    · rw [List.mem_singleton.mp hb]
      decide
  · exact hg.value b hb

theorem Header.name_split (h : Header) (htoken : ∀ b ∈ h.name, isToken b = true) :
    header_of h.text = some (h.name, h.value) := by
  have hcolon : 58 ∉ h.name := fun hb => (isToken_plain (htoken 58 hb)).2.2 rfl
  have htext : h.text = h.name ++ 58 :: h.value := List.append_assoc _ _ _
  have hdrop : (h.name ++ 58 :: h.value).drop (h.name.length + 1) = h.value := by
    rw [← List.drop_drop, List.drop_left]
    rfl
  unfold header_of
  rw [htext, show index_of (lit ":") (h.name ++ 58 :: h.value) = some h.name.length from index_of_here hcolon,
    map_some, List.take_left, hdrop]

def Header.tells (h : Header) (said : Said) : Said :=
  { said with count := said.count + 1, authorization := h.credential.or said.authorization }

/-- A header line is gone past if it is a token, a colon and a value, within the count, and no second
Proxy-Authorization. -/
theorem header_line_iff {said said' : Said} {content : Bytes} : header_line said content = .ok said' ↔
      ∃ h : Header, content = h.text ∧ h.name ≠ [] ∧ (∀ b ∈ h.name, isToken b = true) ∧
        said.count + 1 ≤ MAX_HEADERS ∧ (h.credential.isSome = true → said.authorization = none) ∧
          said' = h.tells said := by
  constructor
  · intro hline
    unfold header_line at hline
    dsimp only at hline
    split at hline
    · cases hline
    next hcount =>
    split at hline
    · cases hline
    next name value hof =>
    split at hline
    · cases hline
    next htoken =>
    rw [not_not, List.all_eq_true] at htoken
    obtain ⟨colon, hcolon, hparts⟩ := map_eq_some_iff.mp hof
    obtain ⟨u, v, rfl, -, rfl⟩ := index_of_byte (c := 58) hcolon
    have hdrop : (u ++ 58 :: v).drop (u.length + 1) = v := by
      rw [← List.drop_drop, List.drop_left]
      rfl
    rw [List.take_left, hdrop] at hparts
    obtain ⟨rfl, rfl⟩ := Prod.mk.inj hparts
    refine ⟨⟨u, v⟩, by simp [Header.text, lit], htoken.1, htoken.2, Nat.le_of_not_lt hcount, ?_⟩
    unfold Header.tells Header.credential
    split at hline
    · next hname =>
      rw [if_pos hname]
      split at hline
      · cases hline
      · next hnone =>
        rw [not_isSome_iff_eq_none] at hnone
        exact ⟨fun _ => hnone, (ok.inj hline).symm⟩
    · next hname =>
      rw [if_neg hname]
      exact ⟨fun h => absurd h (by simp), (ok.inj hline).symm⟩
  · rintro ⟨h, rfl, hfilled, htoken, hcount, honce, rfl⟩
    unfold header_line
    dsimp only
    rw [if_neg (by omega), h.name_split htoken]
    dsimp only
    rw [if_neg (not_not.mpr ⟨hfilled, List.all_eq_true.mpr htoken⟩)]
    unfold Header.tells Header.credential at *
    split at honce
    · next hname =>
      rw [if_pos hname, if_pos hname, if_neg (by rw [honce rfl]; simp)]
      rfl
    · next hname =>
      rw [if_neg hname, if_neg hname]
      rfl

theorem line_empty {said : Said} (hfirst : said.first = false) (at_ : ℕ) :
    line said [] at_ = .error { status := .done, consumed := at_, host := said.host, kind := said.kind
                                port := said.port, authorization := said.authorization } := by
  unfold line
  rw [hfirst, if_neg (by simp), if_pos rfl]

theorem line_header {said : Said} (hfirst : said.first = false) {h : Header} (hfilled : h.name ≠ [])
    (htoken : ∀ b ∈ h.name, isToken b = true) (at_ : ℕ) : line said h.text at_ = header_line said h.text := by
  obtain ⟨b, name, hname⟩ := List.exists_cons_of_ne_nil hfilled
  have htext : h.text = b :: (name ++ lit ":" ++ h.value) := by
    unfold Header.text
    rw [hname]
    rfl
  have hblank : isLineBlank b = false := (isToken_plain (htoken b (by rw [hname]; exact List.mem_cons_self))).1
  unfold line
  rw [hfirst, if_neg (by simp), htext, if_neg (by simp), if_neg (by simp [hblank])]

theorem request_line_not_done {said : Said} {content : Bytes} {a : Connect}
    (h : request_line said content = .error a) : ¬a.Done := by
  intro hdone
  have hzero := (request_line_after h 0).done hdone
  have hone := (request_line_after h 1).done hdone
  omega

theorem header_line_not_done {said : Said} {content : Bytes} {a : Connect}
    (h : header_line said content = .error a) : ¬a.Done := by
  intro hdone
  have hzero := (header_line_after h 0).done hdone
  have hone := (header_line_after h 1).done hdone
  omega

theorem line_cases {said : Said} (hfirst : said.first = false) {content rest : Bytes} {pos : ℕ} {a : Connect}
    (hgoes : Goes said content pos rest a) (hdone : a.Done) :
    content = [] ∨ ∃ h : Header, content = h.text ∧ h.name ≠ [] ∧ (∀ b ∈ h.name, isToken b = true) ∧
        said.count + 1 ≤ MAX_HEADERS ∧ (h.credential.isSome = true → said.authorization = none) ∧
          (Scan.at_line pos (h.tells said)).run rest = .error a := by
  have hline : line said content pos =
      if content = [] then
        .error { status := .done, consumed := pos, host := said.host, kind := said.kind, port := said.port
                 authorization := said.authorization }
      else if content.head?.any isLineBlank then
        .error (refused (lit "an obsolete header line fold (a line starting with whitespace)") 400)
      else header_line said content := by
    unfold line
    rw [hfirst, if_neg (by simp)]
  by_cases hnil : content = []
  · exact .inl hnil
  rw [if_neg hnil] at hline
  rcases hgoes with herror | ⟨said', hok, hrun⟩
  · rw [hline] at herror
    split at herror
    · rw [← error.inj herror] at hdone
      cases hdone
    · exact absurd hdone (header_line_not_done herror)
  · rw [hline] at hok
    split at hok
    · cases hok
    · obtain ⟨h, htext, hfilled, htoken, hcount, honce, rfl⟩ := header_line_iff.mp hok
      exact .inr ⟨h, htext, hfilled, htoken, hcount, honce, hrun⟩

/-! ## Blocks of headers -/

structure Within (said : Said) (pos : ℕ) (hs : List Header) : Prop where
  good : ∀ h ∈ hs, h.Good
  lines : ∀ h ∈ hs, h.text.length ≤ MAX_LINE
  head : pos + (block hs).length ≤ MAX_HEAD
  count : said.count + hs.length ≤ MAX_HEADERS
  once : (said.authorization.toList ++ credentials hs).length ≤ 1

theorem credentials_cons (h : Header) (hs : List Header) :
    credentials (h :: hs) = h.credential.toList ++ credentials hs := by
  unfold credentials
  cases hc : h.credential with
  | none => rw [List.filterMap_cons_none hc]; rfl
  | some v => rw [List.filterMap_cons_some hc]; rfl

theorem says_credentials {said : Said} {h : Header} {hs : List Header}
    (honce : h.credential.isSome = true → said.authorization = none) :
    said.authorization.toList ++ credentials (h :: hs) = (h.tells said).authorization.toList ++ credentials hs := by
  rw [credentials_cons]
  unfold Header.tells
  cases hc : h.credential with
  | none => rfl
  | some v =>
    rw [honce (by rw [hc]; rfl)]
    rfl

theorem block_cons_length (h : Header) (hs : List Header) :
    (block (h :: hs)).length = h.text.length + 2 + (block hs).length := by
  rw [block_cons, List.length_append, List.length_append]
  rfl

/-- Headers within the caps are read to their empty line. By induction on them: each goes past one line,
and what it says is what is said before the next. -/
theorem run_block {hs : List Header} {said : Said} {pos : ℕ} (hfirst : said.first = false)
    (hin : Within said pos hs) (rest : Bytes) :
    (Scan.at_line pos said).run (block hs ++ rest) =
      .error { status := .done, consumed := pos + (block hs).length, host := said.host, kind := said.kind
               port := said.port, authorization := (said.authorization.toList ++ credentials hs).head? } := by
  induction hs generalizing said pos with
  | nil =>
    have hcap : pos + 2 ≤ MAX_HEAD := hin.head
    have hread := @run_line pos said [] (by simp) (Nat.zero_le _) hcap rest
    rw [show block [] ++ rest = [] ++ CRLF ++ rest from rfl, hread, List.length_nil, Nat.add_zero, line_empty hfirst]
    have hlast : (said.authorization.toList ++ credentials []).head? = said.authorization := by
      cases said.authorization <;> rfl
    rw [hlast]
    rfl
  | cons h hs ih =>
    have hgood := hin.good h List.mem_cons_self
    have hlength := block_cons_length h hs
    have hhead := hin.head
    have hcount := hin.count
    have honce := hin.once
    rw [List.length_cons] at hcount
    have hfree : h.credential.isSome = true → said.authorization = none := by
      intro hsome
      obtain ⟨v, hv⟩ := isSome_iff_exists.mp hsome
      rw [credentials_cons, hv] at honce
      cases hauth : said.authorization with
      | none => rfl
      | some w =>
        rw [hauth] at honce
        simp at honce
    have hsaid : line said h.text (pos + h.text.length + 2) = .ok (h.tells said) := by
      rw [line_header hfirst hgood.filled hgood.token]
      exact header_line_iff.mpr ⟨h, rfl, hgood.filled, hgood.token, by omega, hfree, rfl⟩
    have hread := @run_line pos said h.text hgood.text (hin.lines h List.mem_cons_self) (by omega) (block hs ++ rest)
    rw [hsaid] at hread
    rw [says_credentials hfree] at honce
    have hnext := @ih (h.tells said) (pos + h.text.length + 2) hfirst
      ⟨fun x hx => hin.good x (List.mem_cons_of_mem h hx), fun x hx => hin.lines x (List.mem_cons_of_mem h hx),
        by omega, by show said.count + 1 + hs.length ≤ MAX_HEADERS; omega, honce⟩
    rw [block_cons, List.append_assoc, hread]
    dsimp only
    rw [hnext, says_credentials hfree]
    congr 2
    rw [List.length_append, List.length_append]
    show pos + h.text.length + 2 + (block hs).length = pos + (h.text.length + 2 + (block hs).length)
    omega

/-- Where the pass is done after the request line, it went past headers within the caps and their empty
line. By induction on how much there is to read. -/
theorem block_of_done {b : Bytes} {said : Said} {pos : ℕ} {a : Connect} (hfirst : said.first = false)
    (hcount : said.count ≤ MAX_HEADERS) (hrun : (Scan.at_line pos said).run b = .error a) (hdone : a.Done) :
    ∃ hs rest, b = block hs ++ rest ∧ Within said pos hs := by
  induction hn : b.length using Nat.strong_induction_on generalizing b said pos with
  | _ n ih =>
    obtain ⟨w, rest, rfl, hw, hline, hhead, hgoes⟩ :=
      run_done rfl (by show pos < pos + 1 + MAX_LINE; omega) hrun hdone
    rw [show (Scan.at_line pos said).pos = pos from rfl,
      show (Scan.at_line pos said).line_start = pos + 1 from rfl] at hline
    rw [show (Scan.at_line pos said).pos = pos from rfl] at hhead hgoes
    rcases line_cases hfirst hgoes hdone with rfl | ⟨h, rfl, hfilled, htoken, hmore, honce, hrest⟩
    · refine ⟨[], rest, rfl, by simp, by simp, hhead, hcount, ?_⟩
      cases said.authorization <;> simp [credentials]
    have hshorter : rest.length < n := by
      rw [← hn, List.length_append, List.length_append, show CRLF.length = 2 from rfl]
      omega
    obtain ⟨hs, rest', rfl, hin⟩ := @ih rest.length hshorter rest (h.tells said) _ hfirst hmore hrest rfl
    have hgood : h.Good := ⟨hfilled, htoken, fun b hb => hw b (List.mem_append_right _ hb)⟩
    have hlength := block_cons_length h hs
    have hnext := hin.head
    have hsum := hin.count
    rw [show (h.tells said).count = said.count + 1 from rfl] at hsum
    refine ⟨h :: hs, rest', by simp only [block_cons, List.append_assoc], ?_, ?_, by omega, ?_, ?_⟩
    · intro x hx
      rcases List.mem_cons.mp hx with rfl | hx
      · exact hgood
      · exact hin.good x hx
    · intro x hx
      rcases List.mem_cons.mp hx with rfl | hx
      · omega
      · exact hin.lines x hx
    · rw [List.length_cons]
      omega
    · rw [says_credentials honce]
      exact hin.once

/-! ## Request lines -/

def request_text (target : Bytes) (minor : UInt8) : Bytes := lit "CONNECT " ++ target ++ lit " HTTP/1." ++ [minor]

theorem request_line_iff {said said' : Said} {content : Bytes} : request_line said content = .ok said' ↔
      ∃ target minor found, (minor = 48 ∨ minor = 49) ∧ content = request_text target minor ∧
        authority target = .ok found ∧
          said' = { said with first := false, host := some found.host, kind := some found.kind
                              port := some found.port } := by
  constructor
  · intro h
    unfold request_line at h
    split at h
    · cases h
    split at h
    · cases h
    next target version htarget =>
    split at h
    · cases h
    next hversion =>
    split at h
    · cases h
    next found hfound =>
    -- three parts between two spaces, the first of them the method
    have hcontent : content = lit "CONNECT " ++ target ++ lit " " ++ version := by
      unfold connect_target at htarget
      split at htarget
      · next method target' version' hsplit =>
        split at htarget
        · next hmethod =>
          cases htarget
          rw [← concat_splitOn 32 content, hsplit, hmethod]
          simp [concat, lit]
        · cases htarget
      · cases htarget
    have hminor : ∃ minor : UInt8, (minor = 48 ∨ minor = 49) ∧ version = lit "HTTP/1." ++ [minor] := by
      by_cases hone : version = lit "HTTP/1.1"
      · exact ⟨49, .inr rfl, hone⟩
      · by_cases hzero : version = lit "HTTP/1.0"
        · exact ⟨48, .inl rfl, hzero⟩
        · exact absurd ⟨hone, hzero⟩ hversion
    obtain ⟨minor, hdigit, rfl⟩ := hminor
    refine ⟨target, minor, found, hdigit, ?_, hfound, (ok.inj h).symm⟩
    rw [hcontent]
    simp [request_text, lit]
  · rintro ⟨target, minor, found, hminor, rfl, hfound, rfl⟩
    obtain ⟨t, hnamed, -⟩ := authority_iff.mp hfound
    have hmethod : (request_text target minor).takeWhile (fun b => !isLineBlank b) = lit "CONNECT" := rfl
    have hsplit : (request_text target minor).splitOn 32 = [lit "CONNECT", target, lit "HTTP/1." ++ [minor]] := by
      have hparts : request_text target minor = concat [32] [lit "CONNECT", target, lit "HTTP/1." ++ [minor]] := by
        simp [request_text, concat, lit]
      rw [hparts, splitOn_concat (by simp)]
      intro p hp
      simp only [List.mem_cons, List.not_mem_nil, or_false] at hp
      rcases hp with rfl | rfl | rfl
      · decide
      · exact hnamed.no_space
      · rcases hminor with rfl | rfl <;> decide
    have hversion : ¬(lit "HTTP/1." ++ [minor] ≠ lit "HTTP/1.1" ∧ lit "HTTP/1." ++ [minor] ≠ lit "HTTP/1.0") := by
      rcases hminor with rfl | rfl
      · exact fun h => h.2 rfl
      · exact fun h => h.1 rfl
    unfold request_line
    rw [hmethod, if_neg (by simp), show connect_target (request_text target minor) =
      some (target, lit "HTTP/1." ++ [minor]) by unfold connect_target; rw [hsplit]; exact if_pos rfl]
    dsimp only
    rw [if_neg hversion, hfound]

/-! ## Heads -/

/-- A head: the target and the digit of its request line, and its headers. -/
structure Head where
  target : Bytes
  minor : UInt8
  headers : List Header

def Head.request (head : Head) : Bytes := request_text head.target head.minor

def Head.bytes (head : Head) : Bytes := head.request ++ CRLF ++ block head.headers

/-- A head that is accepted, and the target that Grant reads it to name. -/
structure Head.Accepted (head : Head) (t : Grant.Target) : Prop where
  minor : head.minor = 48 ∨ head.minor = 49
  target : Addressed head.target t
  good : ∀ h ∈ head.headers, h.Good
  request_line : head.request.length ≤ MAX_LINE
  lines : ∀ h ∈ head.headers, h.text.length ≤ MAX_LINE
  length : head.bytes.length ≤ MAX_HEAD
  count : head.headers.length ≤ MAX_HEADERS
  once : (credentials head.headers).length ≤ 1

theorem request_plain {target : Bytes} {minor : UInt8} {t : Grant.Target} (hminor : minor = 48 ∨ minor = 49)
    (hnamed : Addressed target t) : ∀ b ∈ request_text target minor, isSpecial b = false := by
  intro b hb
  rcases List.mem_append.mp hb with hb | hb
  · rcases List.mem_append.mp hb with hb | hb
    · rcases List.mem_append.mp hb with hb | hb
      · exact (by decide +kernel : ∀ b ∈ lit "CONNECT ", isSpecial b = false) b hb
      obtain ⟨h₁, h₂⟩ := hnamed.printing hb
      simp only [UInt8.le_iff_toNat_le, UInt8.reduceToNat] at h₁ h₂
      simp only [isSpecial, Bool.or_eq_false_iff, Bool.and_eq_false_iff, decide_eq_false_iff_not,
        UInt8.le_iff_toNat_le, UInt8.reduceToNat, beq_eq_false_iff_ne]
      refine ⟨⟨by omega, .inr (by omega)⟩, ?_⟩
      rintro rfl
      simp at h₂
    · exact (by decide +kernel : ∀ b ∈ lit " HTTP/1.", isSpecial b = false) b hb
  · rw [List.mem_singleton.mp hb]
    rcases hminor with rfl | rfl <;> decide

theorem Head.bytes_length (head : Head) :
    head.bytes.length = head.request.length + 2 + (block head.headers).length := by
  unfold Head.bytes
  rw [List.length_append, List.length_append]
  rfl

theorem judge_head {head : Head} {t : Grant.Target} (h : head.Accepted t) {found : Authority}
    (hfound : authority head.target = .ok found) (rest : Bytes) :
    connect_judge (head.bytes ++ rest) =
      { status := .done, consumed := head.bytes.length, host := some found.host, kind := some found.kind
        port := some found.port, authorization := (credentials head.headers).head? } := by
  have hlength := head.bytes_length
  have hcap := h.length
  have hsaid : line {} head.request (0 + head.request.length + 2) =
      .ok { first := false, host := some found.host, kind := some found.kind, port := some found.port } :=
    request_line_iff.mpr ⟨head.target, head.minor, found, h.minor, rfl, hfound, rfl⟩
  have hread := @run_line 0 {} head.request (request_plain h.minor h.target) h.request_line (by omega)
    (block head.headers ++ rest)
  rw [hsaid] at hread
  have hblock := @run_block head.headers
    { first := false, host := some found.host, kind := some found.kind, port := some found.port }
    (0 + head.request.length + 2) rfl
    ⟨h.good, h.lines, by omega, by show 0 + head.headers.length ≤ MAX_HEADERS; have := h.count; omega, h.once⟩ rest
  dsimp only at hread
  rw [hblock] at hread
  unfold connect_judge Head.bytes
  rw [List.append_assoc _ (block _) rest]
  rw [show Scan.start = Scan.at_line 0 {} from rfl, hread]
  dsimp only
  congr 1
  rw [List.length_append, List.length_append, show CRLF.length = 2 from rfl]
  omega

theorem head_of_done {b : Bytes} (hdone : (connect_judge b).Done) :
    ∃ (head : Head) (t : Grant.Target) (rest : Bytes), head.Accepted t ∧ b = head.bytes ++ rest := by
  unfold connect_judge at hdone
  cases hrun : Scan.start.run b with
  | ok s =>
    rw [hrun] at hdone
    cases hdone
  | error a =>
    rw [hrun] at hdone
    obtain ⟨w, rest, rfl, hw, hline, hhead, hgoes⟩ := run_done rfl (by decide) hrun hdone
    have hlength : w.length ≤ MAX_LINE := by
      have hcap : 0 + w.length < 1 + MAX_LINE := hline
      omega
    rcases hgoes with herror | ⟨said, hok, hrest⟩
    · exact absurd hdone (request_line_not_done herror)
    obtain ⟨target, minor, found, hminor, htext, hfound, rfl⟩ := request_line_iff.mp hok
    obtain rfl : w = request_text target minor := htext
    obtain ⟨t, hnamed, -⟩ := authority_iff.mp hfound
    obtain ⟨hs, rest', rfl, hin⟩ := block_of_done (by exact rfl) (Nat.zero_le _) hrest hdone
    refine ⟨⟨target, minor, hs⟩, t, rest', ⟨hminor, hnamed, hin.good, hlength, hin.lines, ?_, ?_, hin.once⟩, ?_⟩
    · have hcap := hin.head
      rw [Head.bytes_length]
      show (request_text target minor).length + 2 + (block hs).length ≤ MAX_HEAD
      omega
    · have hcount := hin.count
      exact (Nat.zero_add _).symm.trans_le hcount
    · unfold Head.bytes Head.request
      rw [List.append_assoc _ (block hs) rest']

/-! ## What no head holds -/

def ended (ls : List Bytes) : Bytes := ls.flatMap (· ++ CRLF)

theorem ended_cons (l : Bytes) (ls : List Bytes) : ended (l :: ls) = l ++ 13 :: 10 :: ended ls := by
  simp [ended, CRLF]

/-- A part of ended lines that begins with a carriage return ends a line: what comes after it are the
lines that follow. By induction on the lines. -/
theorem ended_return {ls : List Bytes} (hls : ∀ l ∈ ls, 13 ∉ l) {u v : Bytes} (h : ended ls = u ++ 13 :: v) :
    ∃ before l after, ls = before ++ l :: after ∧ u = ended before ++ l ∧ v = 10 :: ended after := by
  induction ls generalizing u with
  | nil => exact absurd h.symm (by simp [ended])
  | cons l ls ih =>
    have hl : 13 ∉ l := hls l List.mem_cons_self
    rw [ended_cons] at h
    rcases List.append_eq_append_iff.mp h with ⟨c, rfl, hc⟩ | ⟨c, rfl, hc⟩
    · -- the carriage return is at the end of this line, or after it
      match c, hc with
      | [], hc =>
        obtain rfl := (List.cons.inj hc).2
        exact ⟨[], l, ls, rfl, by simp [ended], rfl⟩
      | [b], hc => exact absurd (List.cons.inj (List.cons.inj hc).2).1 (by decide)
      | b :: b' :: c, hc =>
        obtain ⟨before, l', after, rfl, rfl, rfl⟩ :=
          ih (fun x hx => hls x (List.mem_cons_of_mem l hx)) (List.cons.inj (List.cons.inj hc).2).2
        obtain rfl : b = 13 := (List.cons.inj hc).1.symm
        obtain rfl : b' = 10 := (List.cons.inj (List.cons.inj hc).2).1.symm
        exact ⟨l :: before, l', after, rfl, by simp [ended_cons], rfl⟩
    · cases c with
      | nil =>
        obtain rfl := (List.cons.inj hc).2
        exact ⟨[], u, ls, by simp, by simp [ended], rfl⟩
      | cons b c =>
        obtain ⟨rfl, -⟩ := List.cons.inj hc
        exact absurd (List.mem_append_right u List.mem_cons_self) hl

theorem ended_feed {ls : List Bytes} (hls : ∀ l ∈ ls, 10 ∉ l) {u v : Bytes} (h : ended ls = u ++ 10 :: v) :
    ∃ u', u = u' ++ [13] := by
  induction ls generalizing u with
  | nil => exact absurd h.symm (by simp [ended])
  | cons l ls ih =>
    have hl : 10 ∉ l := hls l List.mem_cons_self
    rw [ended_cons] at h
    rcases List.append_eq_append_iff.mp h with ⟨c, rfl, hc⟩ | ⟨c, rfl, hc⟩
    · match c, hc with
      | [], hc => exact absurd (List.cons.inj hc).1 (by decide)
      | [b], hc => exact ⟨l, by rw [(List.cons.inj hc).1]⟩
      | b :: b' :: c, hc =>
        obtain ⟨u', rfl⟩ := ih (fun x hx => hls x (List.mem_cons_of_mem l hx)) (List.cons.inj (List.cons.inj hc).2).2
        exact ⟨l ++ b :: b' :: u', by simp⟩
    · cases c with
      | nil => exact absurd (List.cons.inj hc).1 (by decide)
      | cons b c =>
        obtain ⟨rfl, -⟩ := List.cons.inj hc
        exact absurd (List.mem_append_right u List.mem_cons_self) hl

/-- Bytes without a bare CR or LF, a NUL, a folded line, or a blank before the colon of a line after the
first. -/
structure Clean (s : Bytes) : Prop where
  cr : ∀ u v, s = u ++ 13 :: v → ∃ v', v = 10 :: v'
  lf : ∀ u v, s = u ++ 10 :: v → ∃ u', u = u' ++ [13]
  nul : 0 ∉ s
  fold : ∀ u b v, s = u ++ CRLF ++ b :: v → isLineBlank b = false
  colon : ∀ u name v, s = u ++ CRLF ++ name ++ 58 :: v → 13 ∉ name → 58 ∉ name → ∀ b ∈ name, isLineBlank b = false

def Head.lines (head : Head) : List Bytes := head.request :: (head.headers.map Header.text ++ [[]])

theorem Head.bytes_eq (head : Head) : head.bytes = ended head.lines := by
  unfold Head.lines
  rw [ended_cons]
  unfold Head.bytes block ended
  simp [CRLF, List.flatMap_map]

theorem Head.Accepted.plain {head : Head} {t : Grant.Target} (h : head.Accepted t) {l : Bytes}
    (hl : l ∈ head.lines) : ∀ b ∈ l, isSpecial b = false := by
  rcases List.mem_cons.mp hl with rfl | hl
  · exact request_plain h.minor h.target
  · rcases List.mem_append.mp hl with hl | hl
    · obtain ⟨x, hx, rfl⟩ := List.mem_map.mp hl
      exact (h.good x hx).text
    · rw [List.mem_singleton.mp hl]
      exact nofun

theorem Head.Accepted.after_line {head : Head} {t : Grant.Target} (h : head.Accepted t) {u v : Bytes}
    (hs : head.bytes = u ++ CRLF ++ v) :
    v = [] ∨ (∃ v', v = 13 :: v') ∨ ∃ x ∈ head.headers, ∃ v', v = x.name ++ 58 :: v' := by
  have hreturn : ∀ l ∈ head.lines, 13 ∉ l := fun l hl hmem => absurd (h.plain hl 13 hmem) (by decide)
  rw [head.bytes_eq, List.append_assoc] at hs
  obtain ⟨before, l, after, hlines, -, hv⟩ := ended_return hreturn hs
  obtain rfl : v = ended after := (List.cons.inj hv).2
  -- the lines after the first are those of the headers and the empty one
  have hsuffix : after <:+ head.headers.map Header.text ++ [[]] := by
    cases before with
    | nil => exact (List.cons.inj hlines).2 ▸ List.suffix_refl _
    | cons b before => exact (List.cons.inj hlines).2 ▸ ⟨before ++ [l], by simp⟩
  cases after with
  | nil => exact .inl rfl
  | cons first after =>
    rw [ended_cons]
    rcases List.mem_append.mp (hsuffix.subset List.mem_cons_self) with hmem | hmem
    · obtain ⟨x, hx, rfl⟩ := List.mem_map.mp hmem
      exact .inr (.inr ⟨x, hx, x.value ++ 13 :: 10 :: ended after, by simp [Header.text, lit]⟩)
    · rw [List.mem_singleton.mp hmem]
      exact .inr (.inl ⟨10 :: ended after, rfl⟩)

theorem Head.Accepted.clean {head : Head} {t : Grant.Target} (h : head.Accepted t) : Clean head.bytes where
  cr := by
    intro u v hs
    rw [head.bytes_eq] at hs
    obtain ⟨-, -, after, -, -, hv⟩ := ended_return (fun l hl hmem => absurd (h.plain hl 13 hmem) (by decide)) hs
    exact ⟨_, hv⟩
  lf := by
    intro u v hs
    rw [head.bytes_eq] at hs
    exact ended_feed (fun l hl hmem => absurd (h.plain hl 10 hmem) (by decide)) hs
  nul := by
    intro hmem
    rw [head.bytes_eq] at hmem
    obtain ⟨l, hl, hmem⟩ := List.mem_flatMap.mp hmem
    rcases List.mem_append.mp hmem with hmem | hmem
    · exact absurd (h.plain hl 0 hmem) (by decide)
    · exact absurd hmem (by decide)
  fold := by
    intro u b v hs
    rcases h.after_line hs with hnil | ⟨v', hv⟩ | ⟨x, hx, v', hv⟩
    · cases hnil
    · rw [(List.cons.inj hv).1]
      decide
    · obtain ⟨c, name, hname⟩ := List.exists_cons_of_ne_nil (h.good x hx).filled
      have hc := (isToken_plain ((h.good x hx).token c (by rw [hname]; exact List.mem_cons_self))).1
      rw [hname] at hv
      rwa [(List.cons.inj hv).1]
  colon := by
    intro u name v hs hcr hcolon b hb
    rw [List.append_assoc _ name] at hs
    rcases h.after_line hs with hnil | ⟨v', hv⟩ | ⟨x, hx, v', hv⟩
    · exact absurd hnil (by simp)
    · cases name with
      | nil => cases hb
      | cons c name =>
        exact absurd (by rw [(List.cons.inj hv).1]; exact List.mem_cons_self) hcr
    · have hx58 : 58 ∉ x.name := fun hmem => (isToken_plain ((h.good x hx).token 58 hmem)).2.2 rfl
      have hname : name = x.name := by
        have hleft := index_of_here (s := v) hcolon
        rw [hv, index_of_here hx58] at hleft
        have hlength : x.name.length = name.length := some.inj hleft
        exact (List.append_inj_left hv.symm hlength).symm
      rw [hname] at hb
      exact (isToken_plain ((h.good x hx).token b hb)).1

/-! ## The reader -/

/-- The CONNECT reader accepts exactly its grammar: fed a string in any pieces it is done if and only if
the string begins with a head that is accepted; it then consumed that head, and its host, kind, port and
credentials are the head's. No head that is accepted holds a bare CR or LF, a NUL, a folded line or a
blank before a header's colon. -/
theorem connect_reader_accepts (cs : List Bytes) (c : Bytes) : ((connect_reader.answer cs c).Done ↔
      ∃ (head : Head) (t : Grant.Target) (rest : Bytes), head.Accepted t ∧ cs.flatten ++ c = head.bytes ++ rest) ∧
    (∀ (head : Head) (t : Grant.Target) (rest : Bytes), head.Accepted t → cs.flatten ++ c = head.bytes ++ rest →
      (connect_reader.answer cs c).consumed = head.bytes.length ∧
      (connect_reader.answer cs c).host = some t.host ∧
      (connect_reader.answer cs c).kind.map Kind.grant = some t.kind ∧
      (connect_reader.answer cs c).port = some t.port ∧
      (connect_reader.answer cs c).authorization = (credentials head.headers).head?) ∧
    ((connect_reader.answer cs c).Done → Clean ((cs.flatten ++ c).take (connect_reader.answer cs c).consumed)) := by
  rw [connect_reader_reads.answers]
  -- an accepted head is read as what it says
  have hread : ∀ (head : Head) (t : Grant.Target) (rest : Bytes), head.Accepted t →
      cs.flatten ++ c = head.bytes ++ rest → ∃ found : Authority, (found.kind.grant = t.kind ∧ found.host = t.host ∧
        found.port = t.port) ∧ connect_judge (cs.flatten ++ c) =
          { status := .done, consumed := head.bytes.length, host := some found.host, kind := some found.kind
            port := some found.port, authorization := (credentials head.headers).head? } := by
    intro head t rest haccepted hstring
    have hkind : ∃ kind : Kind, kind.grant = t.kind := by
      have hany := haccepted.target.host
      cases hk : t.kind with
      | name => exact ⟨.name, rfl⟩
      | ipv4 => exact ⟨.ipv4, rfl⟩
      | ipv6 => exact ⟨.ipv6, rfl⟩
      | any => exact absurd hk hany
    obtain ⟨kind, hkind⟩ := hkind
    have hfound : authority head.target = .ok ⟨t.host, kind, t.port⟩ :=
      authority_iff.mpr ⟨t, haccepted.target, hkind, rfl, rfl⟩
    exact ⟨⟨t.host, kind, t.port⟩, ⟨hkind, rfl, rfl⟩, by rw [hstring]; exact judge_head haccepted hfound rest⟩
  refine ⟨⟨head_of_done, ?_⟩, ?_, ?_⟩
  · rintro ⟨head, t, rest, haccepted, hstring⟩
    obtain ⟨found, -, hjudge⟩ := hread head t rest haccepted hstring
    rw [hjudge]
    rfl
  · intro head t rest haccepted hstring
    obtain ⟨found, ⟨hkind, hhost, hport⟩, hjudge⟩ := hread head t rest haccepted hstring
    rw [hjudge, ← hkind, ← hhost, ← hport]
    exact ⟨rfl, rfl, rfl, rfl, rfl⟩
  · intro hdone
    obtain ⟨head, t, rest, haccepted, hstring⟩ := head_of_done hdone
    obtain ⟨found, -, hjudge⟩ := hread head t rest haccepted hstring
    rw [hjudge, hstring, List.take_left]
    exact haccepted.clean

/-- A head with credentials, in two pieces, with bytes after it. -/
theorem connect_reader_accepts_one : (connect_reader.answer [lit "CONNECT Example.com:443 HTTP/1.1\r"]
      (lit "\nProxy-Authorization: Basic eDp5 \r\n\r\nrest")).authorization = some (lit "Basic eDp5") :=
  ((connect_reader_accepts [lit "CONNECT Example.com:443 HTTP/1.1\r"]
      (lit "\nProxy-Authorization: Basic eDp5 \r\n\r\nrest")).2.1
    ⟨lit "Example.com:443", 49, [⟨lit "Proxy-Authorization", lit " Basic eDp5 "⟩]⟩
    ⟨.name, lit "example.com", none, 443, lit "example.com:443"⟩ (lit "rest")
    ⟨by decide, ⟨by decide +kernel, by decide, by decide⟩, by
        simp only [List.mem_singleton, forall_eq]
        exact ⟨by decide, by decide +kernel, by decide +kernel⟩,
      by decide, by decide, by decide, by decide, by decide +kernel⟩ (by decide +kernel)).2.2.2.2.trans
    (by decide +kernel)

/-- A digit of the version other than 0 and 1 is refused, and a tab in a value is not. -/
theorem connect_reader_versions : isDigit 50 = true ∧
    (connect_reader.answer [] (lit "CONNECT a:1 HTTP/1.2\r\n\r\n")).status = .refused ∧
    (connect_reader.answer [] (lit "CONNECT a:1 HTTP/1.1\r\nA:\t\r\n\r\n")).Done := by
  refine ⟨by decide, by decide +kernel, ?_⟩
  unfold Connect.Done
  decide +kernel

end Cosmic.Wire
