/-
The heads the CONNECT reader accepts.

A head is a request line, header lines and an empty line, every line ended by CRLF. The pass over the
bytes is cut at the ends of its lines: what is left to show is what each line decides, one lemma for
the request line and one for the header lines, by induction on them. What follows is the converse, that
a string the reader is done with begins with such a head, by induction on the string.
-/
import Cosmic.Relay.ConnectRead

set_option autoImplicit false

namespace Cosmic.Wire

open Cosmic.Base List Option Except Bool UInt8

/-! ## Authorities -/

theorem bare_host_ok {text host : Bytes} {kind : Kind} (h : bare_host text = .ok (host, kind)) :
    ∃ bytes, Grant.Host text kind.grant host bytes := by
  unfold bare_host at h
  split at h
  · next hfour =>
    obtain ⟨bytes, hbytes⟩ := isSome_iff_exists.mp hfour
    obtain ⟨hlen, rfl⟩ := octets_iff.mp hbytes
    cases h
    exact ⟨some bytes, .ipv4 hlen⟩
  · cases hname : Grant.name text with
    | error why =>
      rw [hname] at h
      cases h
    | ok name =>
      rw [hname] at h
      cases h
      exact ⟨none, .name hname⟩

theorem authority_host_ok {text host rest : Bytes} {kind : Kind} (h : authority_host text = .ok (host, kind, rest)) :
    ∃ spelled bytes, text = spelled ++ lit ":" ++ rest ∧ Grant.Host spelled kind.grant host bytes := by
  unfold authority_host at h
  split at h
  · next hopen =>
    split at h
    · cases h
    next close hclose =>
    obtain ⟨u, v, rfl, -, rfl⟩ := index_of_byte (c := 93) hclose
    rw [take_left] at h
    have hdrop : (u ++ 93 :: v).drop (u.length + 1) = v := by
      rw [← drop_drop, drop_left]
      rfl
    -- the text begins with a bracket, which is not the one that closes
    obtain ⟨inner, rfl⟩ : ∃ inner, u = 91 :: inner := by
      cases u with
      | nil => cases hopen
      | cons b u => exact ⟨u, by rw [cons_append, head?_cons, some_inj] at hopen; rw [hopen]⟩
    rw [hdrop, drop_one, tail_cons] at h
    cases hread : ipv6_bytes inner with
    | error why =>
      rw [show ipv6 inner = .error why by unfold ipv6; rw [hread]; rfl] at h
      cases h
    | ok bytes =>
      rw [show ipv6 inner = .ok (Grant.ipv6_text bytes) by unfold ipv6; rw [hread]; rfl] at h
      obtain ⟨hcolon, haddress⟩ := ipv6_bytes_ok_iff.mp hread
      dsimp only at h
      split at h
      · obtain ⟨rfl, rfl, rfl⟩ := h
        refine ⟨lit "[" ++ inner ++ lit "]", some bytes.1, ?_, .ipv6 bytes hcolon haddress⟩
        simp [lit]
      · cases h
  · split at h
    · cases h
    next colon hcolon =>
    obtain ⟨u, v, rfl, -, rfl⟩ := index_of_byte (c := 58) hcolon
    have hdrop : (u ++ 58 :: v).drop (u.length + 1) = v := by
      rw [← drop_drop, drop_left]
      rfl
    rw [take_left, hdrop] at h
    dsimp only at h
    split at h
    · cases h
    split at h
    · cases h
    · next found kind' hfound =>
      obtain ⟨rfl, rfl, rfl⟩ := h
      obtain ⟨bytes, hhost⟩ := bare_host_ok hfound
      exact ⟨u, bytes, by simp [lit], hhost⟩

theorem Kind.grant_injective : Function.Injective Kind.grant := by
  intro k k' h
  cases k <;> cases k' <;> first | rfl | cases h

/-- What `Grant.parse` reads as a host with a port of its own. -/
structure Addressed (text : Bytes) (t : Grant.Target) : Prop where
  parsed : Grant.parse text = .ok t
  host : t.kind ≠ .any
  port : t.port ≠ 0

/-- The authorities that are read are the hosts with a port that Grant reads, as the same host and port. -/
theorem authority_iff {text : Bytes} {a : Authority} : authority text = .ok a ↔
      ∃ t, Addressed text t ∧ a.kind.grant = t.kind ∧ a.host = t.host ∧ a.port = t.port := by
  constructor
  · intro h
    unfold authority at h
    split at h
    · cases h
    split at h
    · cases h
    next host kind rest hhost =>
    cases hport : Grant.port rest with
    | error why =>
      rw [hport] at h
      cases h
    | ok port =>
      rw [hport] at h
      have ha : a = ⟨host, kind, port⟩ := (ok.inj h).symm
      obtain ⟨h₁, h₂, rfl⟩ := Grant.port_ok_iff.mp hport
      obtain ⟨spelled, bytes, rfl, hspelled⟩ := authority_host_ok hhost
      have htext : Grant.port_text port = tostring port := if_neg (by omega)
      refine ⟨⟨kind.grant, host, bytes, port, Grant.text_of kind.grant host port⟩, ⟨?_, ?_, ?_⟩, ?_⟩
      · exact Grant.parse_iff.mpr ⟨spelled, by rw [htext], h₂, hspelled, rfl⟩
      · cases kind <;> simp [Kind.grant]
      · exact Nat.ne_of_gt h₁
      · rw [ha]
        exact ⟨rfl, rfl, rfl⟩
  · rintro ⟨t, ⟨hparsed, hany, hport⟩, hkind, hhost, hsame⟩
    obtain ⟨spelled, rfl, hle, hspelled, -⟩ := Grant.parse_iff.mp hparsed
    obtain ⟨a', ha', hhost', hkind', hport'⟩ := authority_of_host hspelled hany (Nat.one_le_iff_ne_zero.mpr hport) hle
    rw [show Grant.port_text t.port = tostring t.port from if_neg hport, ha']
    obtain ⟨host, kind, port⟩ := a
    obtain ⟨host', kind', port'⟩ := a'
    dsimp only at *
    rw [Kind.grant_injective (hkind'.trans hkind.symm), hhost', hport', hhost, hsame]

theorem unspelled {b : UInt8} (h : b ≤ 32 ∨ 127 ≤ b) :
    Grant.isPlain b = false ∧ isUpper b = false ∧ isHex b = false ∧ isDigit b = false ∧
      b ≠ 45 ∧ b ≠ 46 ∧ b ≠ 58 ∧ b ≠ 91 ∧ b ≠ 93 := by
  have hne : ∀ c : UInt8, 33 ≤ c → c ≤ 126 → b ≠ c := by
    rintro c h₁ h₂ rfl
    simp only [le_iff_toNat_le, UInt8.reduceToNat] at h h₁ h₂
    omega
  have hout : b.toNat ≤ 32 ∨ 127 ≤ b.toNat := by
    simpa only [le_iff_toNat_le, UInt8.reduceToNat] using h
  have hfalse : ∀ c d : UInt8, 33 ≤ c.toNat → d.toNat ≤ 126 → (decide (c ≤ b) && decide (b ≤ d)) = false := by
    intro c d h₁ h₂
    rw [and_eq_false_iff, decide_eq_false_iff_not, decide_eq_false_iff_not, le_iff_toNat_le, le_iff_toNat_le]
    omega
  refine ⟨?_, ?_, ?_, ?_, hne 45 (by decide) (by decide), hne 46 (by decide) (by decide),
    hne 58 (by decide) (by decide), hne 91 (by decide) (by decide), hne 93 (by decide) (by decide)⟩
  · simp [Grant.isPlain, isDigit, hfalse]
  · simp [isUpper, hfalse]
  · simp [isHex, isDigit, hfalse]
  · simp [isDigit, hfalse]

theorem Addressed.printing {text : Bytes} {t : Grant.Target} (h : Addressed text t) {b : UInt8} (hb : b ∈ text) :
    33 ≤ b ∧ b ≤ 126 := by
  by_contra hout
  have hlow : b ≤ 32 ∨ 127 ≤ b := by
    simp only [le_iff_toNat_le, UInt8.reduceToNat] at hout ⊢
    omega
  obtain ⟨hplain, hupper, hhex, hdigit, h45, h46, h58, h91, h93⟩ := unspelled hlow
  obtain ⟨kind, canonical, bytes, port, spelled⟩ := t
  obtain ⟨host, rfl, -, hhost, -⟩ := Grant.parse_iff.mp h.parsed
  rw [show Grant.port_text port = tostring port from if_neg h.port] at hb
  have hno : b ∉ host := by
    have hany := h.host
    cases hhost with
    | any => exact absurd rfl hany
    | name hname => exact Grant.not_mem_of_name hname hplain hupper h45 h46
    | ipv4 _ => exact Grant.not_mem_dotted hdigit h46
    | ipv6 sixteen hcolon haddress =>
      have hinner := not_mem_of_address hcolon haddress hhex h58 h46
      simp [lit, hinner, h91, h93]
  have hport : b ∉ tostring port := no_mem_tostring hdigit
  simp [lit, hno, hport, h58] at hb

theorem Addressed.no_space {text : Bytes} {t : Grant.Target} (h : Addressed text t) : 32 ∉ text :=
  fun hb => absurd (h.printing hb).1 (by decide)

/-! ## Lines -/

/-- The end of a line. -/
def CRLF : Bytes := [13, 10]

/-- The pass at the first byte of a line. -/
def Scan.at_line (pos : ℕ) (said : Said) : Scan := ⟨pos, pos + 1, [], false, said⟩

/-- What is left to read after a line, and that it is answered with `a`. -/
def Goes (said : Said) (content : Bytes) (pos : ℕ) (rest : Bytes) (a : Connect) : Prop :=
  line said content pos = .error a ∨
    ∃ said', line said content pos = .ok said' ∧ (Scan.at_line pos said').run rest = .error a

theorem run_crlf {s : Scan} (hcr : s.after_cr = false) (hhead : s.pos + 2 ≤ MAX_HEAD) (rest : Bytes) :
    s.run (13 :: 10 :: rest) =
      match line s.said s.text (s.pos + 2) with
      | .error a => .error a
      | .ok said => (Scan.at_line (s.pos + 2) said).run rest := by
  have hreturn : s.step 13 = .ok { s with pos := s.pos + 1, after_cr := true } := by
    rw [Scan.step, if_neg (by omega), hcr, if_neg (by simp), if_pos (by decide), if_pos rfl]
  have hfeed : Scan.step { s with pos := s.pos + 1, after_cr := true } 10 =
      (line s.said s.text (s.pos + 2)).map fun said => Scan.at_line (s.pos + 2) said := by
    rw [Scan.step, if_neg (by dsimp only; omega), if_pos rfl, if_neg (by simp)]
    rfl
  rw [Scan.run_cons_ok _ hreturn]
  cases hl : line s.said s.text (s.pos + 2) with
  | error a =>
    rw [hl] at hfeed
    exact Scan.run_cons_error rest hfeed
  | ok said =>
    rw [hl] at hfeed
    exact Scan.run_cons_ok rest hfeed

/-- A line within the caps is read whole, and decided where it ends. -/
theorem run_line {pos : ℕ} {said : Said} {w : Bytes} (hw : ∀ b ∈ w, isSpecial b = false)
    (hline : w.length ≤ MAX_LINE) (hhead : pos + w.length + 2 ≤ MAX_HEAD) (rest : Bytes) :
    (Scan.at_line pos said).run (w ++ CRLF ++ rest) =
      match line said w (pos + w.length + 2) with
      | .error a => .error a
      | .ok said => (Scan.at_line (pos + w.length + 2) said).run rest := by
  have hplain := @run_plain (Scan.at_line pos said) w rfl hw (by show pos ≤ MAX_HEAD; omega)
    (by show pos < pos + 1 + MAX_LINE; omega)
  rw [show (Scan.at_line pos said).pos = pos from rfl,
    show (Scan.at_line pos said).line_start = pos + 1 from rfl, if_neg (by omega), if_neg (by omega)] at hplain
  rw [append_assoc, Scan.run_append_ok _ hplain]
  exact run_crlf rfl hhead rest

/-- Where the pass is done, the line it stands in is whole and within the caps. The induction is on the
string, with the bytes of the line so far in the state. -/
theorem run_done {b : Bytes} {s : Scan} {a : Connect} (hcr : s.after_cr = false)
    (hroom : s.pos < s.line_start + MAX_LINE) (hrun : s.run b = .error a) (hdone : a.Done) :
    ∃ w rest, b = w ++ CRLF ++ rest ∧ (∀ c ∈ w, isSpecial c = false) ∧
      s.pos + w.length < s.line_start + MAX_LINE ∧ s.pos + w.length + 2 ≤ MAX_HEAD ∧
        Goes s.said (s.text ++ w) (s.pos + w.length + 2) rest a := by
  have hno : ∀ {why : Bytes} {n : ℕ}, ¬(refused why n).Done := fun h => absurd h (by simp [Connect.Done, refused])
  induction b generalizing s with
  | nil => cases hrun
  | cons c b ih =>
    cases hstep : s.step c with
    | error answer =>
      -- no byte but one after a carriage return answers that the head is done
      rw [Scan.run_cons_error b hstep] at hrun
      rw [← error.inj hrun] at hdone
      unfold Scan.step at hstep
      rw [hcr] at hstep
      simp only [false_eq_true, if_false] at hstep
      split_ifs at hstep <;> rw [← error.inj hstep] at hdone <;> exact absurd hdone hno
    | ok s' =>
      rw [Scan.run_cons_ok b hstep] at hrun
      unfold Scan.step at hstep
      rw [hcr] at hstep
      simp only [false_eq_true, if_false] at hstep
      split_ifs at hstep with hpast hspecial hreturn hfeed hlong
      · -- a carriage return: the line's end comes next
        cases hstep
        cases b with
        | nil => cases hrun
        | cons d b =>
          have hhead : s.pos + 2 ≤ MAX_HEAD := by
            by_contra hover
            rw [Scan.run_cons_error b (by rw [Scan.step, if_pos (by dsimp only; omega)])] at hrun
            rw [← error.inj hrun] at hdone
            exact hno hdone
          have hlf : d = 10 := by
            by_contra hd
            rw [Scan.run_cons_error (a := refused (lit "a carriage return outside a CRLF line ending") 400) b
              (by rw [Scan.step, if_neg (by dsimp only; omega), if_pos rfl, if_pos hd])] at hrun
            rw [← error.inj hrun] at hdone
            exact hno hdone
          subst hlf hreturn
          have hwhole := run_crlf hcr hhead b
          have hreturned : s.step 13 = .ok { s with pos := s.pos + 1, after_cr := true } := by
            rw [Scan.step, if_neg hpast, hcr, if_neg (by simp), if_pos hspecial, if_pos rfl]
          rw [Scan.run_cons_ok _ hreturned, hrun] at hwhole
          refine ⟨[], b, rfl, forall_mem_nil _, hroom, hhead, ?_⟩
          rw [append_nil]
          cases hl : line s.said s.text (s.pos + 2) with
          | error answer =>
            rw [hl] at hwhole
            rw [error.inj hwhole]
            exact .inl hl
          | ok said =>
            rw [hl] at hwhole
            exact .inr ⟨said, hl, hwhole.symm⟩
      · -- a byte of the line
        cases hstep
        obtain ⟨w, rest, rfl, hw, hline, hhead, hgoes⟩ := ih rfl (Nat.lt_of_not_le hlong) hrun
        have hlen : s.pos + (c :: w).length = s.pos + 1 + w.length := by
          rw [length_cons]
          omega
        refine ⟨c :: w, rest, rfl, ?_, ?_, ?_, ?_⟩
        · intro d hd
          rcases mem_cons.mp hd with rfl | hd
          · simpa using hspecial
          · exact hw d hd
        · rwa [hlen]
        · rwa [hlen]
        · rwa [hlen, append_cons]

end Cosmic.Wire
