/-
What `Grant.parse` accepts: each answer's text is canonical, which is to say that it is read as the
same answer, and two answers with one text are one answer.

Every function of the reading has one lemma that says exactly when it answers and what. The canonical
hosts are disjoint: no DNS name is an IPv4 address, since its last label is no number, and only an
IPv6 host has brackets.
-/
import Cosmic.Relay.GrantText
import Mathlib.Data.List.TakeWhile

set_option autoImplicit false

namespace Cosmic.Grant

open Cosmic.Base Option Except

/-! ## IPv4 -/

def decimal_octet (b : UInt8) : Bytes := tostring b.toNat

def dotted (bytes : Bytes) : Bytes := concat (lit ".") (bytes.map decimal_octet)

theorem octet_decimal (b : UInt8) : octet (decimal_octet b) = some b := by
  have hlt := b.toNat_lt
  have hlen : (tostring b.toNat).length ≤ 3 := (tostring_length_le (by decide)).mpr (by omega)
  unfold octet decimal_octet
  rw [if_neg, decimal_tostring]
  · dsimp only
    rw [if_neg (by omega), UInt8.ofNat_toNat]
  · rintro (h | ⟨hlong, hhead⟩)
    · omega
    · rw [tostring_head hhead] at hlong
      exact absurd hlong (by decide)

variable {b : UInt8}

theorem octet_some {part : Bytes} (hne : part ≠ []) (hd : part.all isDigit = true) (h : octet part = some b) :
    part = decimal_octet b := by
  have hdigits : ∀ c ∈ part, isDigit c = true := List.all_eq_true.mp hd
  unfold octet at h
  split at h
  · cases h
  next hshape =>
  rw [decimal_of_digits hne hdigits] at h
  dsimp only at h
  split at h
  · cases h
  next hle =>
  have hb : b.toNat = digits_value 10 part := by
    rw [← some.inj h, UInt8.toNat_ofNat', Nat.mod_eq_of_lt (by omega)]
  unfold decimal_octet
  rw [hb, tostring_digits_value hne hdigits]
  intro hhead
  have hpos := List.length_pos_of_ne_nil hne
  by_contra hlen
  exact hshape (.inr ⟨by omega, hhead⟩)

theorem decimal_octet_digits {c : UInt8} (h : c ∈ decimal_octet b) : isDigit c = true := isDigit_of_mem_tostring h

variable {text bytes : Bytes}

theorem parse4_iff : parse4 text = some bytes ↔ bytes.length = 4 ∧ text = dotted bytes := by
  constructor
  · intro h
    unfold parse4 captures4 at h
    dsimp only at h
    split at h
    · cases h
    next parts hparts =>
    split at hparts
    · next hshape =>
      have hmap := mapM_eq_some_iff.mp h
      have hlen : parts.length = bytes.length := by
        simpa using congrArg List.length hmap
      rw [some_inj] at hparts
      rw [hparts] at hshape
      have hwritten : parts = bytes.map decimal_octet := by
        apply List.ext_getElem (by rw [List.length_map, hlen])
        intro i h₁ h₂
        obtain ⟨hne, hd⟩ := hshape.2 parts[i] (List.getElem_mem h₁)
        have hi : octet parts[i] = some (bytes.get ⟨i, by omega⟩) := by
          have hget := congrArg (fun l => l[i]?) hmap
          simpa [h₁, show i < bytes.length by omega] using hget
        rw [List.getElem_map]
        exact octet_some hne hd hi
      refine ⟨hlen.symm.trans hshape.1, ?_⟩
      unfold dotted
      rw [← hwritten, ← hparts]
      exact (concat_splitOn 46 text).symm
    · cases hparts
  · rintro ⟨hlen, rfl⟩
    have hne : bytes.map decimal_octet ≠ [] := by
      intro h
      rw [List.map_eq_nil_iff.mp h] at hlen
      cases hlen
    have hsplit : (dotted bytes).splitOn 46 = bytes.map decimal_octet := by
      apply splitOn_concat hne
      intro p hp hdot
      obtain ⟨b, -, rfl⟩ := List.mem_map.mp hp
      exact absurd (decimal_octet_digits hdot) (by decide)
    unfold parse4 captures4
    rw [hsplit, if_pos]
    · rw [mapM_eq_some_iff, List.map_map]
      exact List.map_congr_left fun b _ => octet_decimal b
    · rw [List.length_map]
      refine ⟨hlen, fun p hp => ?_⟩
      obtain ⟨b, -, rfl⟩ := List.mem_map.mp hp
      exact ⟨tostring_ne_nil _, List.all_eq_true.mpr fun c => decimal_octet_digits⟩

theorem mem_dotted (h : b ∈ dotted bytes) : isDigit b = true ∨ b = 46 := by
  rcases mem_concat h with h | ⟨p, hp, h⟩
  · exact .inr (List.mem_singleton.mp h)
  · obtain ⟨c, -, rfl⟩ := List.mem_map.mp hp
    exact .inl (decimal_octet_digits h)

theorem not_mem_dotted (hd : isDigit b = false) (hb : b ≠ 46) : b ∉ dotted bytes := by
  intro h
  rcases mem_dotted h with h | h
  · rw [hd] at h
    cases h
  · exact hb h

theorem dotted_length (h : bytes.length = 4) : (dotted bytes).length ≤ 15 := by
  match bytes, h with
  | [a, b, c, d], _ =>
    have hlen : ∀ b : UInt8, (decimal_octet b).length ≤ 3 := by
      intro b
      have hlt := b.toNat_lt
      exact (tostring_length_le (by decide)).mpr (by omega)
    have ha := hlen a
    have hb := hlen b
    have hc := hlen c
    have hd := hlen d
    have hdot : (lit ".").length = 1 := rfl
    simp only [dotted, List.map_cons, List.map_nil, concat, List.length_append, hdot]
    omega

theorem dotted_ne_nil (h : bytes.length = 4) : dotted bytes ≠ [] := by
  match bytes, h with
  | [a, b, c, d], _ => simp [dotted, concat, lit]

theorem address_of_no_colon (hc : 58 ∉ text) :
    address text = some bytes ↔ bytes.length = 4 ∧ text = dotted bytes := by
  unfold address
  rw [if_neg hc]
  split
  · next h =>
    constructor
    · intro h'
      cases h'
    · rintro ⟨hlen, rfl⟩
      have hle := dotted_length hlen
      rcases h with h | h
      · exact absurd h (dotted_ne_nil hlen)
      · exact absurd (Nat.lt_of_lt_of_le h hle) (by decide)
  · exact parse4_iff

theorem fill_length {first second all : List ℕ} {elided : Bool}
    (h : fill first second elided = some all) : all.length = 8 := by
  unfold fill at h
  dsimp only at h
  split at h
  · split at h
    · cases h
    · rw [← some.inj h]
      simp only [List.length_append, List.length_replicate]
      omega
  · split at h
    · cases h
    · rw [← some.inj h, List.length_append]
      omega

theorem group_bytes_length (all : List ℕ) : (group_bytes all).length = 2 * all.length := by
  unfold group_bytes
  induction all with
  | nil => rfl
  | cons g all ih =>
    rw [List.flatMap_cons, List.length_append, ih, List.length_cons]
    simp only [List.length_cons, List.length_nil]
    omega

theorem parse6_length (h : parse6 text = some bytes) : bytes.length = 16 := by
  unfold parse6 at h
  split at h
  · cases h
  split at h
  · cases h
  · split at h
    · obtain ⟨all, hall, rfl⟩ := map_eq_some_iff.mp h
      rw [group_bytes_length, fill_length hall]
    · cases h

theorem address_length (h : address text = some bytes) :
    58 ∈ text ∧ bytes.length = 16 ∨ 58 ∉ text ∧ bytes.length = 4 := by
  by_cases hc : 58 ∈ text
  · unfold address at h
    split at h
    · cases h
    · exact .inl ⟨hc, parse6_length h⟩
  · exact .inr ⟨hc, ((address_of_no_colon hc).mp h).1⟩

/-! ## Ports -/

def port_text (port : ℕ) : Bytes := if port = 0 then lit "*" else tostring port

theorem isPort_iff : isPort text = true ↔ text ≠ [] ∧ (∀ b ∈ text, isDigit b = true) ∧ text.head? ≠ some 48 := by
  cases text with
  | nil => simp [isPort]
  | cons b rest =>
    have hbounds : isDigit b = true ↔ 48 ≤ b.toNat ∧ b.toNat ≤ 57 := by
      simp only [isDigit, Bool.and_eq_true, decide_eq_true_eq, UInt8.le_iff_toNat_le]
      rfl
    have hfirst : (49 ≤ b && b ≤ 57) = true ↔ 49 ≤ b.toNat ∧ b.toNat ≤ 57 := by
      simp only [Bool.and_eq_true, decide_eq_true_eq, UInt8.le_iff_toNat_le]
      rfl
    have hzero : b = 48 ↔ b.toNat = 48 := UInt8.toNat_inj.symm
    have hport : isPort (b :: rest) = ((49 ≤ b && b ≤ 57) && rest.all isDigit) := rfl
    rw [hport, Bool.and_eq_true, hfirst, List.all_eq_true, List.forall_mem_cons, hbounds,
      List.head?_cons, ne_eq, ne_eq, some_inj, hzero]
    constructor
    · rintro ⟨⟨hlo, hhi⟩, hrest⟩
      exact ⟨List.cons_ne_nil b rest, ⟨⟨by omega, hhi⟩, hrest⟩, by omega⟩
    · rintro ⟨-, ⟨⟨hlo, hhi⟩, hrest⟩, hne⟩
      exact ⟨⟨by omega, hhi⟩, hrest⟩

theorem port_ok_iff {n : ℕ} : port text = .ok n ↔ 1 ≤ n ∧ n ≤ 65535 ∧ text = tostring n := by
  constructor
  · intro h
    unfold port at h
    split at h
    · cases h
    next hshape =>
    rw [not_or, not_not] at hshape
    obtain ⟨hne, hd, hhead⟩ := isPort_iff.mp hshape.1
    rw [decimal_of_digits hne hd] at h
    dsimp only at h
    split at h
    · cases h
    next hle =>
    have hn : digits_value 10 text = n := by simpa using h
    have htext := tostring_digits_value hne hd fun hz => absurd hz hhead
    rw [hn] at htext hle
    refine ⟨Nat.pos_of_ne_zero fun hzero => ?_, by omega, htext.symm⟩
    rw [hzero] at htext
    exact hhead (by rw [← htext]; rfl)
  · rintro ⟨hlo, hhi, rfl⟩
    have hlen : (tostring n).length ≤ 5 := (tostring_length_le (by decide)).mpr (by omega)
    have hport : isPort (tostring n) = true := by
      refine isPort_iff.mpr ⟨tostring_ne_nil n, fun b => isDigit_of_mem_tostring, fun hz => ?_⟩
      have hzero := tostring_head hz
      omega
    unfold port
    rw [if_neg (by rw [hport]; simp; omega), decimal_tostring]
    dsimp only
    rw [if_neg (by omega)]

theorem tostring_ne_star (n : ℕ) : tostring n ≠ lit "*" := by
  intro h
  have hmem : (42 : UInt8) ∈ tostring n := by rw [h]; decide
  exact absurd (isDigit_of_mem_tostring hmem) (by decide)

theorem parse_port_iff {n : ℕ} : parse_port text = .ok n ↔ n ≤ 65535 ∧ text = port_text n := by
  unfold parse_port port_text
  by_cases hstar : text = lit "*"
  · rw [if_pos hstar]
    constructor
    · intro h
      have hn : 0 = n := by simpa using h
      rw [← hn]
      exact ⟨by decide, hstar⟩
    · rintro ⟨-, h⟩
      by_cases hn : n = 0
      · rw [hn]
      · rw [if_neg hn, hstar] at h
        exact absurd h.symm (tostring_ne_star n)
  · rw [if_neg hstar, port_ok_iff]
    constructor
    · rintro ⟨hlo, hhi, h⟩
      rw [if_neg (by omega)]
      exact ⟨hhi, h⟩
    · rintro ⟨hhi, h⟩
      by_cases hn : n = 0
      · rw [if_pos hn] at h
        exact absurd h hstar
      · rw [if_neg hn] at h
        exact ⟨by omega, hhi, h⟩

theorem port_text_ne_nil (n : ℕ) : port_text n ≠ [] := by
  unfold port_text
  split
  · decide
  · exact tostring_ne_nil n

theorem no_colon_port_text (n : ℕ) : 58 ∉ port_text n := by
  unfold port_text
  split
  · decide
  · intro h
    exact absurd (isDigit_of_mem_tostring h) (by decide)

/-! ## A host and a port taken apart -/

variable {host behind : Bytes}

theorem dropWhile_ne_reverse (h : 58 ∉ behind) :
    (host ++ 58 :: behind).reverse.dropWhile (· != 58) = 58 :: host.reverse := by
  rw [List.reverse_append, List.reverse_cons, List.append_assoc, List.singleton_append, List.dropWhile_append_of_pos]
  · rfl
  · intro b hb
    have hne : b ≠ 58 := fun he => h (he ▸ List.mem_reverse.mp hb)
    simpa using hne

theorem takeWhile_ne_reverse (h : 58 ∉ behind) :
    ((host ++ 58 :: behind).reverse.takeWhile (· != 58)).reverse = behind := by
  rw [List.reverse_append, List.reverse_cons, List.append_assoc, List.singleton_append, List.takeWhile_append_of_pos]
  · simp
  · intro b hb
    have hne : b ≠ 58 := fun he => h (he ▸ List.mem_reverse.mp hb)
    simpa using hne

theorem host_port_iff : host_port text = some (host, behind) ↔
      text = host ++ lit ":" ++ behind ∧ host ≠ [] ∧ behind ≠ [] ∧ 58 ∉ behind := by
  constructor
  · intro h
    unfold host_port at h
    dsimp only at h
    split at h
    · cases h
    next b front hdrop =>
    split at h
    · cases h
    next hne =>
    rw [not_or] at hne
    cases h
    have hb : b = 58 := by
      have hno := List.head?_dropWhile_not (· != 58) text.reverse
      rw [hdrop] at hno
      simpa using hno
    have hsplit := List.takeWhile_append_dropWhile (p := (· != 58)) (l := text.reverse)
    refine ⟨?_, by simpa using hne.1, hne.2, fun hmem => ?_⟩
    · rw [hdrop, hb] at hsplit
      have hrev := congrArg List.reverse hsplit
      rw [List.reverse_reverse, List.reverse_append, List.reverse_cons] at hrev
      exact hrev.symm
    · have hmem' := List.mem_takeWhile_imp (List.mem_reverse.mp hmem)
      cases hmem'
  · rintro ⟨rfl, hh, hb, hc⟩
    unfold host_port
    have htext : host ++ lit ":" ++ behind = host ++ 58 :: behind := by
      rw [List.append_assoc]
      rfl
    rw [htext, takeWhile_ne_reverse hc, dropWhile_ne_reverse hc]
    dsimp only
    rw [if_neg (by simp [hh, hb]), List.reverse_reverse]

theorem bracketed_iff {inner : Bytes} : bracketed host = some inner ↔ host = lit "[" ++ inner ++ lit "]" := by
  constructor
  · intro h
    unfold bracketed at h
    split at h
    · cases h
    next b rest =>
    split at h
    · next hshape =>
      obtain ⟨rfl, hlast⟩ := hshape
      rw [← some.inj h]
      have hrest : rest = rest.dropLast ++ [93] := (List.dropLast_append_getLast? _ hlast).symm
      show 91 :: rest = 91 :: (rest.dropLast ++ [93])
      rw [← hrest]
    · cases h
  · rintro rfl
    show bracketed (91 :: (inner ++ [93])) = some inner
    unfold bracketed
    dsimp only
    rw [if_pos ⟨rfl, by simp⟩, List.dropLast_concat]

/-! ## Names -/

/-- A DNS name in canonical form. -/
structure IsName (n : Bytes) : Prop where
  filled : n ≠ []
  short : n.length ≤ MAX_NAME
  labels : ∀ label ∈ n.splitOn 46, check_label label = .ok ()
  no_number : numeric ((n.splitOn 46).getLastD []) = false

theorem forM_check_label {labels : List Bytes} :
    labels.forM check_label = .ok () ↔ ∀ label ∈ labels, check_label label = .ok () := by
  induction labels with
  | nil => simp [pure, Except.pure]
  | cons label labels ih =>
    have hcons : (label :: labels).forM check_label = (check_label label >>= fun _ => labels.forM check_label) := rfl
    rw [hcons]
    cases h : check_label label with
    | error why =>
      constructor
      · intro h'
        cases h'
      · intro h'
        rw [h' label List.mem_cons_self] at h
        cases h
    | ok u =>
      show labels.forM check_label = .ok () ↔ _
      rw [ih]
      simp [h]

variable {n : Bytes}

theorem name_ok_iff : name text = .ok n ↔ n = lower (undotted text) ∧ IsName n := by
  constructor
  · intro h
    unfold name at h
    dsimp only at h
    split at h
    · cases h
    next hne =>
    split at h
    · cases h
    next hlen =>
    split at h
    · cases h
    next hlabels =>
    split at h
    · cases h
    next hnum =>
    have hn : lower (undotted text) = n := by simpa using h
    rw [hn] at hlabels hnum
    refine ⟨hn.symm, ?_, ?_, forM_check_label.mp hlabels, by simpa using hnum⟩
    · rw [← hn]
      exact fun hnil => hne (lower_eq_nil.mp hnil)
    · rw [← hn, lower_length]
      omega
  · rintro ⟨rfl, hname⟩
    have hlen := hname.short
    rw [lower_length] at hlen
    unfold name
    dsimp only
    rw [if_neg fun hnil => hname.filled (lower_eq_nil.mpr hnil), if_neg (by omega), forM_check_label.mpr hname.labels]
    rw [hname.no_number]
    rfl

theorem check_label_ok {label : Bytes} (h : check_label label = .ok ()) :
    label ≠ [] ∧ ∀ b ∈ label, isPlain b = true ∨ b = 45 := by
  unfold check_label at h
  split at h
  · cases h
  next hne =>
  split at h
  · cases h
  split at h
  · cases h
  next hsp =>
  rw [not_not] at hsp
  refine ⟨hne, fun b hb => ?_⟩
  cases label with
  | nil => exact absurd rfl hne
  | cons c rest =>
    simp only [spelled, Bool.and_eq_true, List.all_eq_true, Bool.or_eq_true, beq_iff_eq] at hsp
    rcases List.mem_cons.mp hb with rfl | hb
    · exact .inl hsp.1.1
    · exact hsp.1.2 b hb

theorem IsName.mem (h : IsName n) (hb : b ∈ n) : isPlain b = true ∨ b = 45 ∨ b = 46 := by
  rw [← concat_splitOn 46 n] at hb
  rcases mem_concat hb with hb | ⟨label, hl, hb⟩
  · exact .inr (.inr (List.mem_singleton.mp hb))
  · rcases (check_label_ok (h.labels label hl)).2 b hb with h | h
    · exact .inl h
    · exact .inr (.inl h)

theorem IsName.not_mem (h : IsName n) (hp : isPlain b = false) (h₁ : b ≠ 45) (h₂ : b ≠ 46) : b ∉ n := by
  intro hb
  rcases h.mem hb with hb | hb | hb
  · rw [hp] at hb
    cases hb
  · exact h₁ hb
  · exact h₂ hb

theorem isUpper_of_isPlain (h : isPlain b = true) : isUpper b = false := by
  simp only [isPlain, isDigit, Bool.or_eq_true, Bool.and_eq_true, decide_eq_true_eq, UInt8.le_iff_toNat_le] at h
  simp only [isUpper, Bool.and_eq_false_iff, decide_eq_false_iff_not, UInt8.le_iff_toNat_le]
  simp only [UInt8.toNat_ofNat] at h ⊢
  omega

theorem IsName.lower (h : IsName n) : lower n = n := by
  apply lower_of_forall
  intro b hb
  rcases h.mem hb with hb | rfl | rfl
  · exact isUpper_of_isPlain hb
  · decide
  · decide

theorem IsName.undotted (h : IsName n) : undotted n = n := by
  unfold Grant.undotted
  rw [if_neg]
  intro hlast
  have hn : n = n.dropLast ++ 46 :: [] := (List.dropLast_append_getLast? _ hlast).symm
  have hempty : ([] : Bytes) ∈ n.splitOn 46 := by
    rw [hn, List.splitOn_append_cons_self, List.splitOn_nil]
    exact List.mem_append_right _ (List.mem_singleton.mpr rfl)
  exact (check_label_ok (h.labels [] hempty)).1 rfl

theorem IsName.name (h : IsName n) : name n = .ok n := name_ok_iff.mpr ⟨by rw [h.undotted, h.lower], h⟩

theorem name_idempotent (h : name text = .ok n) : name n = .ok n := (name_ok_iff.mp h).2.name

theorem IsName.address_none (h : IsName n) : address n = none := by
  have hcolon : 58 ∉ n := h.not_mem (by decide) (by decide) (by decide)
  cases haddr : address n with
  | none => rfl
  | some bytes =>
    obtain ⟨hlen, htext⟩ := (address_of_no_colon hcolon).mp haddr
    match bytes, hlen with
    | [a, b, c, d], _ =>
      have hsplit : n.splitOn 46 = [a, b, c, d].map decimal_octet := by
        rw [htext]
        apply splitOn_concat (by simp)
        intro p hp hdot
        obtain ⟨e, -, rfl⟩ := List.mem_map.mp hp
        exact absurd (decimal_octet_digits hdot) (by decide)
      have hnum := h.no_number
      rw [hsplit] at hnum
      have hall : (decimal_octet d).all isDigit = true := List.all_eq_true.mpr fun e => decimal_octet_digits
      have hne : decimal_octet d ≠ [] := tostring_ne_nil _
      simp [numeric, hall, hne] at hnum

theorem not_mem_of_name (h : name text = .ok n) (hp : isPlain b = false) (hu : isUpper b = false) (h₁ : b ≠ 45)
    (h₂ : b ≠ 46) : b ∉ text := by
  obtain ⟨rfl, hname⟩ := name_ok_iff.mp h
  intro hb
  have hmem : b ∈ undotted text := by
    unfold undotted
    split
    · next hlast =>
      have htext : text = text.dropLast ++ [46] := (List.dropLast_append_getLast? _ hlast).symm
      rw [htext] at hb
      rcases List.mem_append.mp hb with hb | hb
      · exact hb
      · exact absurd (List.mem_singleton.mp hb) h₂
    · exact hb
  have hlow : b ∈ Base.lower (undotted text) := by
    refine List.mem_map.mpr ⟨b, hmem, ?_⟩
    rw [hu]
    rfl
  exact hname.not_mem hp h₁ h₂ hlow

theorem address_of_name (h : name text = .ok n) : address text = none := by
  have hcolon : 58 ∉ text := not_mem_of_name h (by decide) (by decide) (by decide) (by decide)
  cases haddr : address text with
  | none => rfl
  | some bytes =>
    obtain ⟨hlen, htext⟩ := (address_of_no_colon hcolon).mp haddr
    obtain ⟨hn, hname⟩ := name_ok_iff.mp h
    have hdot : undotted text = text := by
      unfold undotted
      rw [if_neg]
      intro hlast
      match bytes, hlen with
      | [a, b, c, d], _ =>
        have hend : text.getLast? = (decimal_octet d).getLast? := by
          rw [htext]
          simp only [dotted, List.map_cons, List.map_nil, concat]
          rw [List.getLast?_append_of_ne_nil _ (by simp [decimal_octet, tostring_ne_nil]),
            List.getLast?_append_of_ne_nil _ (by simp [decimal_octet, tostring_ne_nil]),
            List.getLast?_append_of_ne_nil _ (show decimal_octet d ≠ [] from tostring_ne_nil _)]
        rw [hend] at hlast
        exact absurd (decimal_octet_digits (List.mem_of_getLast? hlast)) (by decide)
    have hlow : Base.lower text = text := by
      apply lower_of_forall
      intro b hb
      rw [htext] at hb
      rcases mem_dotted hb with hb | rfl
      · exact isUpper_of_isPlain (by simp [isPlain, hb])
      · decide
    rw [hdot, hlow] at hn
    have hnone := hname.address_none
    rw [hn, haddr] at hnone
    cases hnone

/-! ## Targets -/

/-- What the host of a target is read as: its kind, its canonical form and its bytes. -/
inductive Host : Bytes → Kind → Bytes → Option Bytes → Prop where
  | any : Host (lit "*") .any (lit "*") none
  | name {host n : Bytes} (h : name host = .ok n) : Host host .name n none
  | ipv4 {bytes : Bytes} (h : bytes.length = 4) : Host (dotted bytes) .ipv4 (dotted bytes) (some bytes)
  | ipv6 {inner : Bytes} (bytes : Sixteen) (hc : 58 ∈ inner) (h : address inner = some bytes.1) :
      Host (lit "[" ++ inner ++ lit "]") .ipv6 (ipv6_text bytes) (some bytes.1)

/-- A canonical host as a target's text has it. -/
def display (kind : Kind) (host : Bytes) : Bytes :=
  if kind = .ipv6 then lit "[" ++ host ++ lit "]" else host

theorem text_of_eq (kind : Kind) (host : Bytes) (port : ℕ) :
    text_of kind host port = display kind host ++ lit ":" ++ port_text port := rfl

theorem bracketed_none (h : 91 ∉ host) : bracketed host = none := by
  cases hb : bracketed host with
  | none => rfl
  | some inner =>
    rw [bracketed_iff.mp hb] at h
    exact absurd (by simp [lit]) h

variable {t : Target}

theorem parse_host_iff {port : ℕ} : parse_host host port = .ok t ↔ Host host t.kind t.host t.bytes ∧ t.port = port ∧
        t.text = display t.kind t.host ++ lit ":" ++ port_text port := by
  constructor
  · intro h
    unfold parse_host at h
    split at h
    · next inner hinner =>
      split at h
      · cases h
      next bytes hbytes =>
      split at h
      · next hlen =>
        have ht := ok.inj h
        subst ht
        rw [bracketed_iff.mp hinner]
        split at hbytes
        · next hc => exact ⟨.ipv6 ⟨bytes, hlen⟩ hc hbytes, rfl, rfl⟩
        · cases hbytes
      · cases h
    · split at h
      · cases h
      next hcolon =>
      split at h
      · next hstar =>
        have ht := ok.inj h
        subst ht
        rw [hstar]
        exact ⟨.any, rfl, rfl⟩
      · split at h
        · cases h
        split at h
        · cases h
        split at h
        · next bytes hbytes =>
          have ht := ok.inj h
          subst ht
          obtain ⟨hlen, htext⟩ := (address_of_no_colon hcolon).mp hbytes
          rw [htext]
          exact ⟨.ipv4 hlen, rfl, rfl⟩
        · split at h
          · cases h
          · next n hn =>
            have ht := ok.inj h
            subst ht
            exact ⟨.name hn, rfl, rfl⟩
  · rintro ⟨hhost, rfl, htext⟩
    obtain ⟨kind, canonical, bytes, port, text⟩ := t
    dsimp only at hhost htext ⊢
    subst htext
    unfold parse_host
    cases hhost with
    | any => rfl
    | name h =>
      have hno : ∀ {b : UInt8}, isPlain b = false → isUpper b = false → b ≠ 45 → b ≠ 46 →
          b ∉ host := fun hp hu h₁ h₂ => not_mem_of_name h hp hu h₁ h₂
      have hopen : 91 ∉ host := hno (by decide) (by decide) (by decide) (by decide)
      have hclose : 93 ∉ host := hno (by decide) (by decide) (by decide) (by decide)
      have hstar : 42 ∉ host := hno (by decide) (by decide) (by decide) (by decide)
      have hcolon : 58 ∉ host := hno (by decide) (by decide) (by decide) (by decide)
      rw [bracketed_none hopen]
      rw [if_neg hcolon, if_neg fun he => hstar (by rw [he]; decide), if_neg hstar,
        if_neg (by simp [hopen, hclose]), address_of_name h]
      dsimp only
      rw [h]
      rfl
    | ipv4 hlen =>
      rename_i four
      have hno : ∀ {b : UInt8}, isDigit b = false → b ≠ 46 → b ∉ dotted four :=
        fun hd hb => not_mem_dotted hd hb
      have hopen : 91 ∉ dotted four := hno (by decide) (by decide)
      have hclose : 93 ∉ dotted four := hno (by decide) (by decide)
      have hstar : 42 ∉ dotted four := hno (by decide) (by decide)
      have hcolon : 58 ∉ dotted four := hno (by decide) (by decide)
      rw [bracketed_none hopen]
      rw [if_neg hcolon, if_neg fun he => hstar (by rw [he]; decide), if_neg hstar,
        if_neg (by simp [hopen, hclose]), (address_of_no_colon hcolon).mpr ⟨hlen, rfl⟩]
      rfl
    | ipv6 sixteen hc h =>
      rw [bracketed_iff.mpr rfl]
      dsimp only
      rw [if_pos hc, h]
      dsimp only
      rw [dif_pos sixteen.2]
      rfl

variable {kind : Kind}

theorem Host.ne_nil {canonical : Bytes} {bytes : Option Bytes} (h : Host host kind canonical bytes) : host ≠ [] := by
  cases h with
  | any => decide
  | name h =>
    obtain ⟨rfl, hname⟩ := name_ok_iff.mp h
    rintro rfl
    exact hname.filled rfl
  | ipv4 hlen => exact dotted_ne_nil hlen
  | ipv6 bytes hc h => simp [lit]

theorem Host.canonical {canonical : Bytes} {bytes : Option Bytes} (h : Host host kind canonical bytes) :
    Host (display kind canonical) kind canonical bytes := by
  cases h with
  | any => exact .any
  | name h => exact .name (name_idempotent h)
  | ipv4 hlen => exact .ipv4 hlen
  | ipv6 bytes hc h =>
    have hall : (words bytes.1).length = 8 := words_length bytes.2
    exact .ipv6 bytes (address_groups_text hall fun g => words_lt).2.1 (address_ipv6_text bytes)

def host_of (text : Bytes) : Bytes :=
  match host_port text with
  | some (host, _) => host
  | none => []

theorem parse_iff : parse text = .ok t ↔ ∃ host, text = host ++ lit ":" ++ port_text t.port ∧ t.port ≤ 65535 ∧
        Host host t.kind t.host t.bytes ∧ t.text = text_of t.kind t.host t.port := by
  constructor
  · intro h
    unfold parse at h
    split at h
    · cases h
    next host behind hsplit =>
    split at h
    · cases h
    next port hport =>
    obtain ⟨hhost, hp, htext⟩ := parse_host_iff.mp h
    obtain ⟨hle, hbehind⟩ := parse_port_iff.mp hport
    have hparts := (host_port_iff.mp hsplit).1
    refine ⟨host, ?_, by omega, hhost, ?_⟩
    · rw [hparts, hbehind, hp]
    · rw [htext, hp, text_of_eq]
  · rintro ⟨host, rfl, hle, hhost, htext⟩
    have hsplit : host_port (host ++ lit ":" ++ port_text t.port) = some (host, port_text t.port) :=
      host_port_iff.mpr ⟨rfl, hhost.ne_nil, port_text_ne_nil _, no_colon_port_text _⟩
    unfold parse
    rw [hsplit]
    dsimp only
    rw [parse_port_iff.mpr ⟨hle, rfl⟩]
    exact parse_host_iff.mpr ⟨hhost, rfl, htext⟩

theorem host_of_eq (hne : host ≠ []) (port : ℕ) : host_of (host ++ lit ":" ++ port_text port) = host := by
  unfold host_of
  rw [host_port_iff.mpr ⟨rfl, hne, port_text_ne_nil port, no_colon_port_text port⟩]

theorem parse_host_of (h : parse text = .ok t) : Host (host_of text) t.kind t.host t.bytes := by
  obtain ⟨host, rfl, -, hhost, -⟩ := parse_iff.mp h
  rwa [host_of_eq hhost.ne_nil]

theorem parse_text (h : parse text = .ok t) : parse t.text = .ok t := by
  obtain ⟨host, -, hle, hhost, htext⟩ := parse_iff.mp h
  exact parse_iff.mpr ⟨display t.kind t.host, by rw [htext, text_of_eq], hle, hhost.canonical, htext⟩

theorem target_eq_of_text {x₁ x₂ : Bytes} {t₁ t₂ : Target} (h₁ : parse x₁ = .ok t₁)
    (h₂ : parse x₂ = .ok t₂) (h : t₁.text = t₂.text) : t₁ = t₂ := by
  have h' := parse_text h₂
  rw [← h, parse_text h₁] at h'
  exact ok.inj h'

/-- A host is one kind, and one address or one name without regard to case and the dot at its end.
-/
theorem Host.canonical_eq {host₁ host₂ c₁ c₂ : Bytes} {bytes : Option Bytes} (h₁ : Host host₁ kind c₁ bytes)
    (h₂ : Host host₂ kind c₂ bytes)
    (hname : kind = .name → Base.lower (undotted host₁) = Base.lower (undotted host₂)) : c₁ = c₂ := by
  cases h₁ with
  | any =>
    cases h₂
    rfl
  | name h =>
    cases h₂ with
    | name h' => rw [(name_ok_iff.mp h).1, (name_ok_iff.mp h').1, hname rfl]
  | ipv4 hlen =>
    cases h₂
    rfl
  | ipv6 sixteen hc h =>
    generalize hb : some sixteen.1 = bytes at h₂
    cases h₂ with
    | ipv6 sixteen' hc' h' => rw [Subtype.ext (some.inj hb)]

/-- Two targets have one text exactly when they are of one kind, address or name, and port. -/
theorem text_eq_iff {x₁ x₂ : Bytes} {t₁ t₂ : Target} (h₁ : parse x₁ = .ok t₁) (h₂ : parse x₂ = .ok t₂) :
    t₁.text = t₂.text ↔ t₁.kind = t₂.kind ∧ t₁.bytes = t₂.bytes ∧
        (t₁.kind = .name → Base.lower (undotted (host_of x₁)) = Base.lower (undotted (host_of x₂))) ∧
        t₁.port = t₂.port := by
  have hhost₁ := parse_host_of h₁
  have hhost₂ := parse_host_of h₂
  constructor
  · intro htext
    obtain rfl := target_eq_of_text h₁ h₂ htext
    refine ⟨rfl, rfl, fun hkind => ?_, rfl⟩
    rw [hkind] at hhost₁ hhost₂
    generalize t₁.bytes = bytes, host_of x₁ = host₁, host_of x₂ = host₂ at hhost₁ hhost₂ ⊢
    cases hhost₁ with
    | name h =>
      cases hhost₂ with
      | name h' => rw [← (name_ok_iff.mp h).1, (name_ok_iff.mp h').1]
  · rintro ⟨hkind, hbytes, hname, hport⟩
    obtain ⟨-, -, -, -, htext₁⟩ := parse_iff.mp h₁
    obtain ⟨-, -, -, -, htext₂⟩ := parse_iff.mp h₂
    rw [← hkind, ← hbytes] at hhost₂
    rw [htext₁, htext₂, hhost₁.canonical_eq hhost₂ hname, hkind, hport]

end Cosmic.Grant
