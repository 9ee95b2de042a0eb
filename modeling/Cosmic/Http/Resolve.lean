/-
References resolved: `Url.resolve`, against RFC 3986's sections 5.2.2, 5.2.3 and 5.3 and the parts that the
expression of its appendix B splits a reference into.
-/
import Cosmic.Base.Parts
import Cosmic.Http.DotSegments

set_option autoImplicit false

namespace Cosmic.Url

open Cosmic.Base List Option

/-! ## The source -/

/-- A URI reference's five parts. -/
structure Reference where
  scheme : Option Bytes
  authority : Option Bytes
  path : Bytes
  query : Option Bytes
  fragment : Option Bytes
deriving DecidableEq, Repr

/-- `text` before its first `c`, and after it where it has one. -/
def cut (c : UInt8) (text : Bytes) : Bytes × Option Bytes :=
  match index_of [c] text with
  | none => (text, none)
  | some i => (text.take i, some (text.drop (i + 1)))

/-- `[%w+.%-]` -/
def is_scheme_byte (b : UInt8) : Bool := isAlpha b || isDigit b || b == 43 || b == 46 || b == 45

/-- What `^(%a[%w+.%-]*):` captures, and what follows it. -/
def split_scheme (text : Bytes) : Option Bytes × Bytes :=
  let scheme := text.takeWhile is_scheme_byte
  if scheme.head?.any isAlpha ∧ (text.drop scheme.length).head? = some 58 then
    (some scheme, text.drop (scheme.length + 1))
  else (none, text)

def split_authority (text : Bytes) : Option Bytes × Bytes :=
  if text.take 2 = lit "//" then
    match index_of (lit "/") (text.drop 2) with
    | none => (some (text.drop 2), [])
    | some slash => (some ((text.drop 2).take slash), (text.drop 2).drop slash)
  else (none, text)

def split_reference (text : Bytes) : Reference :=
  let (rest, fragment) := cut 35 text
  let (rest, query) := cut 63 rest
  let (scheme, rest) := split_scheme rest
  let (authority, path) := split_authority rest
  { scheme, authority, path, query, fragment }

/-- What `^(.*/)` matches, or "". -/
def to_last_slash (path : Bytes) : Bytes := (path.reverse.dropWhile (· != 47)).reverse

/-- A relative path in the place of the base's last segment. -/
def merge (b r : Reference) : Bytes :=
  if b.authority ≠ none ∧ b.path = [] then lit "/" ++ r.path else to_last_slash b.path ++ r.path

/-- The parts of the answer, their fragment apart. -/
def resolved_parts (b r : Reference) : Option (Option Bytes × Option Bytes × Bytes × Option Bytes) :=
  if r.scheme ≠ none then
    (remove_dot_segments r.path).map fun path => (r.scheme, r.authority, path, r.query)
  else if r.authority ≠ none then
    (remove_dot_segments r.path).map fun path => (b.scheme, r.authority, path, r.query)
  else if r.path = [] then
    some (b.scheme, b.authority, b.path, if r.query ≠ none then r.query else b.query)
  else if r.path.take 1 = lit "/" then
    (remove_dot_segments r.path).map fun path => (b.scheme, b.authority, path, r.query)
  else
    (remove_dot_segments (merge b r)).map fun path => (b.scheme, b.authority, path, r.query)

/-- `ref` resolved against `base`. -/
def resolve (base ref : Bytes) : Option Bytes :=
  let b := split_reference base
  let r := split_reference ref
  (resolved_parts b r).map fun (scheme, authority, path, query) =>
    ((match scheme with | none => [] | some scheme => scheme ++ lit ":") ++
      (match authority with | none => [] | some authority => lit "//" ++ authority) ++ path ++
      (match query with | none => [] | some query => lit "?" ++ query) ++
      (match r.fragment with | none => [] | some fragment => lit "#" ++ fragment))

example : resolve (lit "https://a.example/b/c") (lit "../d?x") = some (lit "https://a.example/d?x") := by decide

/-! ## Appendix B -/

/-- A letter and then letters, digits, `+`, `-` and `.`. -/
def IsScheme (s : Bytes) : Prop := ∃ c t, s = c :: t ∧ isAlpha c = true ∧ ∀ b ∈ t, is_scheme_byte b = true

/-- A text that begins with a scheme and `:`. -/
def HasScheme (text : Bytes) : Prop := ∃ s t, IsScheme s ∧ text = s ++ 58 :: t

/-- `mark` before a part that is there. -/
def marked (mark : Bytes) (part : Option Bytes) : Bytes := (part.map (mark ++ ·)).getD []

/-- The text before the query. -/
def Reference.front (r : Reference) : Bytes :=
  ((r.scheme.map (· ++ lit ":")).getD []) ++ marked (lit "//") r.authority ++ r.path

/-- RFC 3986, 5.3: the parts put together. -/
def Reference.text (r : Reference) : Bytes := r.front ++ marked (lit "?") r.query ++ marked (lit "#") r.fragment

/-- The parts that the expression of appendix B splits `text` into: each is there where it can be, and as
long as it can be. -/
structure Splits (text : Bytes) (r : Reference) : Prop where
  whole : r.text = text
  scheme : ∀ s ∈ r.scheme, IsScheme s
  no_scheme : r.scheme = none → ¬HasScheme text
  authority : ∀ a ∈ r.authority, 47 ∉ a ∧ 63 ∉ a ∧ 35 ∉ a
  no_authority : r.authority = none → ¬lit "//" <+: r.path
  rooted : r.authority ≠ none → r.path = [] ∨ r.path.head? = some 47
  path : 63 ∉ r.path ∧ 35 ∉ r.path
  query : ∀ q ∈ r.query, 35 ∉ q

/-! ## The cuts -/

variable {c : UInt8} {s : Bytes}

variable {text : Bytes}

theorem cut_iff {o : Option Bytes} : cut c text = (s, o) ↔ c ∉ s ∧ s ++ marked [c] o = text := by
  have hnone : ∀ {s : Bytes}, c ∉ s → cut c s = (s, none) := by
    intro s hs
    rw [cut, index_of_not_mem hs]
  have hsome : ∀ {s : Bytes} (t : Bytes), c ∉ s → cut c (s ++ c :: t) = (s, some t) := by
    intro s t hs
    have hfound : index_of [c] (s ++ c :: t) = some s.length := by
      rw [index_of_append hs, index_of, if_pos (by simp)]
      simp
    have hdrop : (s ++ c :: t).drop (s.length + 1) = t := by
      rw [← drop_drop, drop_left]
      rfl
    rw [cut, hfound]
    dsimp only
    rw [take_left, hdrop]
  constructor
  · intro h
    by_cases hc : c ∈ text
    · obtain ⟨u, v, rfl, hu⟩ := eq_append_cons_of_mem hc
      rw [hsome v hu] at h
      cases h
      exact ⟨hu, rfl⟩
    · rw [hnone hc] at h
      cases h
      exact ⟨hc, append_nil _⟩
  · rintro ⟨hs, rfl⟩
    cases o with
    | none =>
      rw [show marked [c] none = [] from rfl, append_nil]
      exact hnone hs
    | some t => exact hsome t hs

theorem IsScheme.bytes (h : IsScheme s) : ∀ b ∈ s, is_scheme_byte b = true := by
  obtain ⟨c, t, rfl, hc, ht⟩ := h
  refine forall_mem_cons.mpr ⟨?_, ht⟩
  unfold is_scheme_byte
  rw [hc]
  rfl

theorem IsScheme.not_mem (h : IsScheme s) {b : UInt8} (hb : is_scheme_byte b = false) : b ∉ s := by
  intro hmem
  rw [h.bytes b hmem] at hb
  cases hb

theorem split_scheme_some (h : IsScheme s) (t : Bytes) : split_scheme (s ++ 58 :: t) = (some s, t) := by
  have hcolon : (58 :: t).takeWhile is_scheme_byte = [] := rfl
  have htake : (s ++ 58 :: t).takeWhile is_scheme_byte = s := by
    rw [takeWhile_append_of_pos h.bytes, hcolon, append_nil]
  have hhead : s.head?.any isAlpha = true := by
    obtain ⟨c, u, rfl, hc, -⟩ := h
    exact hc
  have hdrop : (s ++ 58 :: t).drop (s.length + 1) = t := by
    rw [← drop_drop, drop_left]
    rfl
  unfold split_scheme
  rw [htake]
  rw [if_pos ⟨hhead, by rw [drop_left]; rfl⟩, hdrop]

theorem split_scheme_none (h : ¬HasScheme text) : split_scheme text = (none, text) := by
  refine if_neg fun ⟨halpha, hcolon⟩ => h ?_
  have hcut : text = text.takeWhile is_scheme_byte ++ text.drop (text.takeWhile is_scheme_byte).length := by
    conv_lhs => rw [← take_append_drop (text.takeWhile is_scheme_byte).length text]
    rw [← prefix_iff_eq_take.mp (List.takeWhile_prefix is_scheme_byte)]
  generalize htake : text.takeWhile is_scheme_byte = s at halpha hcolon hcut
  have hall : ∀ b ∈ s, is_scheme_byte b = true := fun b hb => mem_takeWhile_imp (htake ▸ hb)
  cases hrest : text.drop s.length with
  | nil =>
    rw [hrest] at hcolon
    cases hcolon
  | cons b t =>
    rw [hrest] at hcolon hcut
    cases s with
    | nil => cases halpha
    | cons c u =>
      refine ⟨c :: u, t, ⟨c, u, rfl, halpha, fun b hb => hall b (mem_cons_of_mem c hb)⟩, ?_⟩
      rw [hcut, some.inj hcolon]

theorem split_authority_some {a p : Bytes} (ha : 47 ∉ a) (hp : p = [] ∨ p.head? = some 47) :
    split_authority (lit "//" ++ a ++ p) = (some a, p) := by
  have htake : (lit "//" ++ a ++ p).take 2 = lit "//" := rfl
  have hdrop : (lit "//" ++ a ++ p).drop 2 = a ++ p := rfl
  unfold split_authority
  rw [if_pos htake, hdrop]
  cases p with
  | nil =>
    rw [append_nil, show lit "/" = [47] from rfl, index_of_not_mem ha]
  | cons b t =>
    obtain rfl : b = 47 := by
      rcases hp with hp | hp
      · cases hp
      · exact some.inj hp
    have hfound : index_of (lit "/") (a ++ 47 :: t) = some a.length := by
      rw [show lit "/" = [47] from rfl, index_of_append ha, index_of, if_pos (by simp)]
      simp
    rw [hfound]
    dsimp only
    rw [take_left, drop_left]

theorem split_authority_none (h : ¬lit "//" <+: text) : split_authority text = (none, text) :=
  if_neg fun htake => h (prefix_of_take htake)

/-! ## The parts of a text -/

theorem not_mem_marked {mark : Bytes} {o : Option Bytes} (hmark : c ∉ mark) (ho : ∀ t ∈ o, c ∉ t) :
    c ∉ marked mark o := by
  cases o with
  | none => exact not_mem_nil
  | some t =>
    intro hmem
    rcases mem_append.mp hmem with hmem | hmem
    · exact hmark hmem
    · exact ho t rfl hmem

variable {r : Reference}

theorem not_mem_front (h : Splits text r) (hc : is_scheme_byte c = false) (hcolon : c ≠ 58)
    (hslash : c ≠ 47) (hauthority : ∀ a ∈ r.authority, c ∉ a) (hpath : c ∉ r.path) : c ∉ r.front := by
  intro hmem
  rcases mem_append.mp hmem with hmem | hmem
  · rcases mem_append.mp hmem with hmem | hmem
    · cases hscheme : r.scheme with
      | none =>
        rw [hscheme] at hmem
        cases hmem
      | some s =>
        rw [hscheme] at hmem
        rcases mem_append.mp hmem with hmem | hmem
        · exact (h.scheme s hscheme).not_mem hc hmem
        · exact hcolon (mem_singleton.mp hmem)
    · refine not_mem_marked ?_ hauthority hmem
      intro hmark
      rcases mem_cons.mp hmark with hmark | hmark
      · exact hslash hmark
      · exact hslash (mem_singleton.mp hmark)
  · exact hpath hmem

theorem split_of_splits (h : Splits text r) : split_reference text = r := by
  have hmark : (63 : UInt8) ∉ r.front :=
    not_mem_front h rfl (by decide) (by decide) (fun a ha => (h.authority a ha).2.1) h.path.1
  have hhash : (35 : UInt8) ∉ r.front ++ marked [63] r.query := by
    intro hmem
    rcases mem_append.mp hmem with hmem | hmem
    · exact not_mem_front h rfl (by decide) (by decide) (fun a ha => (h.authority a ha).2.2) h.path.2 hmem
    · exact not_mem_marked (by decide) h.query hmem
  have hfragment : cut 35 text = (r.front ++ marked [63] r.query, r.fragment) := cut_iff.mpr ⟨hhash, h.whole⟩
  have hquery : cut 63 (r.front ++ marked [63] r.query) = (r.front, r.query) := cut_iff.mpr ⟨hmark, rfl⟩
  have hscheme : split_scheme r.front = (r.scheme, marked (lit "//") r.authority ++ r.path) := by
    cases hs : r.scheme with
    | none =>
      have hfront : r.front = marked (lit "//") r.authority ++ r.path := by
        unfold Reference.front
        rw [hs]
        rfl
      have hno : ¬HasScheme r.front := by
        rintro ⟨s, t, hscheme, hcut⟩
        refine h.no_scheme hs ⟨s, t ++ (marked [63] r.query ++ marked [35] r.fragment), hscheme, ?_⟩
        rw [← h.whole, Reference.text, hcut]
        simp only [append_assoc, cons_append]
        rfl
      rw [split_scheme_none hno, hfront]
    | some s =>
      have hfront : r.front = s ++ 58 :: (marked (lit "//") r.authority ++ r.path) := by
        unfold Reference.front
        rw [hs, append_assoc]
        show s ++ lit ":" ++ _ = _
        rw [append_assoc]
        rfl
      rw [hfront]
      exact split_scheme_some (h.scheme s hs) _
  have hauthority : split_authority (marked (lit "//") r.authority ++ r.path) = (r.authority, r.path) := by
    cases ha : r.authority with
    | none => exact split_authority_none (h.no_authority ha)
    | some a =>
      refine split_authority_some (h.authority a ha).1 (h.rooted ?_)
      rw [ha]
      exact some_ne_none a
  unfold split_reference
  rw [hfragment]
  dsimp only
  rw [hquery]
  rw [hscheme]
  dsimp only
  rw [hauthority]

theorem scheme_cut (text : Bytes) : (∃ s t, IsScheme s ∧ text = s ++ 58 :: t ∧ split_scheme text = (some s, t)) ∨
    (¬HasScheme text ∧ split_scheme text = (none, text)) := by
  by_cases h : HasScheme text
  · obtain ⟨s, t, hs, rfl⟩ := h
    exact .inl ⟨s, t, hs, rfl, split_scheme_some hs t⟩
  · exact .inr ⟨h, split_scheme_none h⟩

theorem authority_cut (text : Bytes) :
    (∃ a p, 47 ∉ a ∧ (p = [] ∨ p.head? = some 47) ∧ text = lit "//" ++ a ++ p ∧ split_authority text = (some a, p)) ∨
    (¬lit "//" <+: text ∧ split_authority text = (none, text)) := by
  by_cases h : lit "//" <+: text
  · obtain ⟨t, rfl⟩ := h
    by_cases hslash : 47 ∈ t
    · obtain ⟨a, p, rfl, ha⟩ := eq_append_cons_of_mem hslash
      have hp : (47 :: p = [] ∨ (47 :: p : Bytes).head? = some 47) := .inr rfl
      have hassoc : lit "//" ++ (a ++ 47 :: p) = lit "//" ++ a ++ 47 :: p := (append_assoc _ _ _).symm
      exact .inl ⟨a, 47 :: p, ha, hp, hassoc, hassoc ▸ split_authority_some ha hp⟩
    · refine .inl ⟨t, [], hslash, .inl rfl, (append_nil _).symm, ?_⟩
      have hread := split_authority_some hslash (.inl (Eq.refl ([] : Bytes)))
      rwa [append_nil] at hread
  · exact .inr ⟨h, split_authority_none h⟩

theorem hasScheme_front {front rest : Bytes} (hrest : rest = [] ∨ ∃ b t, rest = b :: t ∧ is_scheme_byte b = false ∧ b ≠ 58)
    (h : HasScheme (front ++ rest)) : HasScheme front := by
  obtain ⟨s, t, hs, hcut⟩ := h
  rcases append_eq_append_iff.mp hcut with ⟨m, rfl, hm⟩ | ⟨m, rfl, hm⟩
  · -- The scheme would reach past the front.
    rcases hrest with rfl | ⟨b, u, rfl, hb, hcolon⟩
    · exact absurd hm.symm (append_ne_nil_of_right_ne_nil _ (cons_ne_nil _ _))
    · cases m with
      | nil => exact absurd (List.cons.inj hm).1 hcolon
      | cons c m =>
        have hmem : b ∈ front ++ c :: m := (List.cons.inj hm).1 ▸ mem_append_right _ mem_cons_self
        exact absurd hmem (hs.not_mem hb)
  · cases m with
    | nil =>
      rcases hrest with rfl | ⟨b, u, rfl, hb, hcolon⟩
      · cases hm
      · exact absurd (List.cons.inj hm).1.symm hcolon
    | cons c m =>
      exact ⟨s, m, hs, by rw [(List.cons.inj hm).1]⟩

theorem splits_split (text : Bytes) : Splits text (split_reference text) := by
  rcases hcut₁ : cut 35 text with ⟨rest₁, fragment⟩
  rcases hcut₂ : cut 63 rest₁ with ⟨rest₂, query⟩
  obtain ⟨hhash, htext⟩ := cut_iff.mp hcut₁
  obtain ⟨hmark, hrest⟩ := cut_iff.mp hcut₂
  subst hrest
  have hhash₂ : 35 ∉ rest₂ := fun h => hhash (mem_append_left _ h)
  have hquery : ∀ q ∈ query, 35 ∉ q := by
    rintro q rfl hq
    exact hhash (mem_append_right _ (mem_cons_of_mem _ hq))
  have hafter : marked [63] query ++ marked [35] fragment = [] ∨
      ∃ b t, marked [63] query ++ marked [35] fragment = b :: t ∧ is_scheme_byte b = false ∧ b ≠ 58 := by
    cases query with
    | some q => exact .inr ⟨63, _, rfl, rfl, by decide⟩
    | none =>
      cases fragment with
      | some f => exact .inr ⟨35, _, rfl, rfl, by decide⟩
      | none => exact .inl rfl
  rw [append_assoc] at htext
  have hsplit : split_reference text =
      { scheme := (split_scheme rest₂).1, authority := (split_authority (split_scheme rest₂).2).1
        path := (split_authority (split_scheme rest₂).2).2, query, fragment } := by
    unfold split_reference
    rw [hcut₁]
    dsimp only
    rw [hcut₂]
  rw [hsplit]
  rcases hcut₃ : split_scheme rest₂ with ⟨scheme, rest₃⟩
  have hscheme : ((scheme.map (· ++ lit ":")).getD []) ++ rest₃ = rest₂ ∧ (∀ s ∈ scheme, IsScheme s) ∧
      (scheme = none → ¬HasScheme text) := by
    rcases scheme_cut rest₂ with ⟨s, t, hs, hcut, hread⟩ | ⟨hno, hread⟩
    · rw [hcut₃] at hread
      cases hread
      refine ⟨?_, fun s' hs' => some.inj hs' ▸ hs, (fun h => nomatch h)⟩
      rw [hcut]
      exact append_assoc _ _ _
    · rw [hcut₃] at hread
      cases hread
      refine ⟨rfl, (fun s hs => nomatch hs), fun _ hhas => hno ?_⟩
      rw [← htext] at hhas
      exact hasScheme_front hafter hhas
  obtain ⟨hrest₂, hscheme, hno_scheme⟩ := hscheme
  have hmem₃ : ∀ c, c ∉ rest₂ → c ∉ rest₃ := fun c hc hmem => hc (hrest₂ ▸ mem_append_right _ hmem)
  rcases hcut₄ : split_authority rest₃ with ⟨authority, path⟩
  dsimp only
  have hauthority : marked (lit "//") authority ++ path = rest₃ ∧ (∀ a ∈ authority, 47 ∉ a) ∧
      (authority = none → ¬lit "//" <+: path) ∧ (authority ≠ none → path = [] ∨ path.head? = some 47) := by
    rcases authority_cut rest₃ with ⟨a, p, ha, hp, hcut, hread⟩ | ⟨hno, hread⟩
    · rw [hcut₄] at hread
      cases hread
      exact ⟨hcut.symm, fun a' ha' => some.inj ha' ▸ ha, (fun h => nomatch h), fun _ => hp⟩
    · rw [hcut₄] at hread
      cases hread
      exact ⟨rfl, (fun a ha => nomatch ha), fun _ => hno, fun h => absurd rfl h⟩
  obtain ⟨hrest₃, hslash, hno_authority, hrooted⟩ := hauthority
  have hin_authority : ∀ c, c ∉ rest₂ → ∀ a ∈ authority, c ∉ a := by
    rintro c hc a rfl hmem
    exact hmem₃ c hc (hrest₃ ▸ mem_append_left _ (mem_append_right _ hmem))
  have hin_path : ∀ c, c ∉ rest₂ → c ∉ path := fun c hc hmem => hmem₃ c hc (hrest₃ ▸ mem_append_right _ hmem)
  exact {
    whole := by
      unfold Reference.text Reference.front
      rwa [append_assoc, append_assoc _ (marked (lit "//") authority), hrest₃, hrest₂]
    scheme := hscheme
    no_scheme := hno_scheme
    authority := fun a ha => ⟨hslash a ha, hin_authority 63 hmark a ha, hin_authority 35 hhash₂ a ha⟩
    no_authority := hno_authority
    rooted := hrooted
    path := ⟨hin_path 63 hmark, hin_path 35 hhash₂⟩
    query := hquery }

theorem splits_iff : Splits text r ↔ r = split_reference text := by
  constructor
  · exact fun h => (split_of_splits h).symm
  · rintro rfl
    exact splits_split text

/-! ## Sections 5.2.2 and 5.2.3 -/

/-- RFC 3986, 5.2.3: `rel` in the place of all that follows the last `/` of the base's path. -/
inductive Merges (b : Reference) (rel : Bytes) : Bytes → Prop
  | rootless (hauthority : b.authority ≠ none) (hpath : b.path = []) : Merges b rel (lit "/" ++ rel)
  | after {front last : Bytes} (hpath : b.path = front ++ 47 :: last) (hlast : 47 ∉ last) :
      Merges b rel (front ++ lit "/" ++ rel)
  | alone (hauthority : b.path = [] → b.authority = none) (hpath : 47 ∉ b.path) : Merges b rel rel

/-- RFC 3986, 5.2.2: the parts of the target, from those of the base and of the reference. -/
inductive Transforms (b r : Reference) : Reference → Prop
  | scheme {path : Bytes} (hs : r.scheme ≠ none) (hremoves : Removes r.path path) : Transforms b r { r with path }
  | authority {path : Bytes} (hs : r.scheme = none) (ha : r.authority ≠ none) (hremoves : Removes r.path path) :
      Transforms b r { r with scheme := b.scheme, path }
  | query (hs : r.scheme = none) (ha : r.authority = none) (hp : r.path = []) (hq : r.query ≠ none) :
      Transforms b r { b with query := r.query, fragment := r.fragment }
  | empty (hs : r.scheme = none) (ha : r.authority = none) (hp : r.path = []) (hq : r.query = none) :
      Transforms b r { b with fragment := r.fragment }
  | absolute {path : Bytes} (hs : r.scheme = none) (ha : r.authority = none) (hp : lit "/" <+: r.path)
      (hremoves : Removes r.path path) :
      Transforms b r { r with scheme := b.scheme, authority := b.authority, path }
  | relative {merged path : Bytes} (hs : r.scheme = none) (ha : r.authority = none) (hne : r.path ≠ [])
      (hp : ¬lit "/" <+: r.path) (hmerges : Merges b r.path merged) (hremoves : Removes merged path) :
      Transforms b r { r with scheme := b.scheme, authority := b.authority, path }

theorem to_last_slash_cut {front last : Bytes} (hlast : 47 ∉ last) :
    to_last_slash (front ++ 47 :: last) = front ++ lit "/" := by
  have hreverse : (front ++ 47 :: last).reverse = last.reverse ++ 47 :: front.reverse := by simp
  have hall : ∀ b ∈ last.reverse, (b != 47) = true := by
    intro b hb
    exact bne_iff_ne.mpr fun hb' => hlast (hb' ▸ mem_reverse.mp hb)
  unfold to_last_slash
  rw [hreverse, dropWhile_append_of_pos hall, dropWhile_cons, if_neg (by decide), reverse_cons, reverse_reverse]
  rfl

variable {path : Bytes}

theorem to_last_slash_none (h : 47 ∉ path) : to_last_slash path = [] := by
  have hall : ∀ b ∈ path.reverse, (b != 47) = true := by
    intro b hb
    exact bne_iff_ne.mpr fun hb' => h (hb' ▸ mem_reverse.mp hb)
  unfold to_last_slash
  rw [dropWhile_eq_nil_iff.mpr hall]
  rfl

theorem last_slash (h : 47 ∈ path) : ∃ front last, path = front ++ 47 :: last ∧ 47 ∉ last := by
  obtain ⟨u, v, huv, hu⟩ := eq_append_cons_of_mem (mem_reverse.mpr h)
  refine ⟨v.reverse, u.reverse, ?_, fun hmem => hu (mem_reverse.mp hmem)⟩
  rw [← reverse_reverse path, huv]
  simp

variable {b : Reference} {merged : Bytes}

theorem merge_iff : Merges b r.path merged ↔ merged = merge b r := by
  constructor
  · intro h
    unfold merge
    cases h with
    | rootless ha hp => rw [if_pos ⟨ha, hp⟩]
    | after hp hlast =>
      have hne : b.path ≠ [] := hp ▸ append_ne_nil_of_right_ne_nil _ (cons_ne_nil _ _)
      rw [if_neg fun h => hne h.2, hp, to_last_slash_cut hlast]
    | alone ha hp =>
      rw [if_neg fun h => h.1 (ha h.2), to_last_slash_none hp, nil_append]
  · rintro rfl
    unfold merge
    split
    case isTrue h => exact .rootless h.1 h.2
    case isFalse h =>
      by_cases hslash : 47 ∈ b.path
      · obtain ⟨front, last, hp, hlast⟩ := last_slash hslash
        rw [hp, to_last_slash_cut hlast]
        exact .after hp hlast
      · rw [to_last_slash_none hslash, nil_append]
        refine .alone (fun hp => ?_) hslash
        by_contra ha
        exact h ⟨ha, hp⟩

theorem slash_first : path.take 1 = lit "/" ↔ lit "/" <+: path := ⟨prefix_of_take, fun h => take_of_prefix h rfl⟩

variable {t : Reference}

theorem transforms_iff : Transforms b r t ↔
    t.fragment = r.fragment ∧ resolved_parts b r = some (t.scheme, t.authority, t.path, t.query) := by
  constructor
  · intro h
    unfold resolved_parts
    cases h with
    | scheme hs hremoves => rw [if_pos hs, (remove_iff _ _).mpr hremoves]; exact ⟨rfl, rfl⟩
    | authority hs ha hremoves =>
      rw [if_neg (not_not_intro hs), if_pos ha, (remove_iff _ _).mpr hremoves]
      exact ⟨rfl, rfl⟩
    | query hs ha hp hq =>
      rw [if_neg (not_not_intro hs), if_neg (not_not_intro ha), if_pos hp, if_pos hq]
      exact ⟨rfl, rfl⟩
    | empty hs ha hp hq =>
      rw [if_neg (not_not_intro hs), if_neg (not_not_intro ha), if_pos hp, if_neg (not_not_intro hq)]
      exact ⟨rfl, rfl⟩
    | absolute hs ha hp hremoves =>
      have hne : r.path ≠ [] := by
        rintro hnil
        rw [hnil] at hp
        exact absurd (prefix_nil.mp hp) (by decide)
      rw [if_neg (not_not_intro hs), if_neg (not_not_intro ha), if_neg hne, if_pos (slash_first.mpr hp),
        (remove_iff _ _).mpr hremoves]
      exact ⟨rfl, rfl⟩
    | relative hs ha hne hp hmerges hremoves =>
      rw [if_neg (not_not_intro hs), if_neg (not_not_intro ha), if_neg hne, if_neg fun h => hp (slash_first.mp h),
        ← merge_iff.mp hmerges, (remove_iff _ _).mpr hremoves]
      exact ⟨rfl, rfl⟩
  · rintro ⟨hfragment, h⟩
    obtain ⟨scheme, authority, path, query, fragment⟩ := t
    subst hfragment
    unfold resolved_parts at h
    by_cases hs : r.scheme = none
    · rw [if_neg (not_not_intro hs)] at h
      by_cases ha : r.authority = none
      · rw [if_neg (not_not_intro ha)] at h
        by_cases hp : r.path = []
        · rw [if_pos hp] at h
          by_cases hq : r.query = none
          · rw [if_neg (not_not_intro hq)] at h
            cases h
            exact .empty hs ha hp hq
          · rw [if_pos hq] at h
            cases h
            exact .query hs ha hp hq
        · rw [if_neg hp] at h
          by_cases hslash : r.path.take 1 = lit "/"
          · rw [if_pos hslash] at h
            obtain ⟨path', hpath', h⟩ := map_eq_some_iff.mp h
            cases h
            exact .absolute hs ha (slash_first.mp hslash) ((remove_iff _ _).mp hpath')
          · rw [if_neg hslash] at h
            obtain ⟨path', hpath', h⟩ := map_eq_some_iff.mp h
            cases h
            exact .relative hs ha hp (fun h => hslash (slash_first.mpr h)) (merge_iff.mpr rfl)
              ((remove_iff _ _).mp hpath')
      · rw [if_pos ha] at h
        obtain ⟨path', hpath', h⟩ := map_eq_some_iff.mp h
        cases h
        exact .authority hs ha ((remove_iff _ _).mp hpath')
    · rw [if_pos hs] at h
      obtain ⟨path', hpath', h⟩ := map_eq_some_iff.mp h
      cases h
      exact .scheme hs ((remove_iff _ _).mp hpath')

theorem text_eq (scheme authority : Option Bytes) (path : Bytes) (query fragment : Option Bytes) :
    ((match scheme with | none => [] | some scheme => scheme ++ lit ":") ++
      (match authority with | none => [] | some authority => lit "//" ++ authority) ++ path ++
      (match query with | none => [] | some query => lit "?" ++ query) ++
      (match fragment with | none => [] | some fragment => lit "#" ++ fragment)) =
    Reference.text { scheme, authority, path, query, fragment } := by
  cases scheme <;> cases authority <;> cases query <;> cases fragment <;> rfl

variable {base : Bytes}

theorem resolve_iff {ref text : Bytes} : resolve base ref = some text ↔
    ∃ t, Transforms (split_reference base) (split_reference ref) t ∧ t.text = text := by
  constructor
  · intro h
    obtain ⟨⟨scheme, authority, path, query⟩, hparts, htext⟩ := map_eq_some_iff.mp h
    refine ⟨⟨scheme, authority, path, query, (split_reference ref).fragment⟩, transforms_iff.mpr ⟨rfl, hparts⟩, ?_⟩
    rw [← htext]
    exact (text_eq _ _ _ _ _).symm
  · rintro ⟨⟨scheme, authority, path, query, fragment⟩, ht, rfl⟩
    obtain ⟨hfragment, hparts⟩ := transforms_iff.mp ht
    subst hfragment
    refine map_eq_some_iff.mpr ⟨_, hparts, ?_⟩
    exact text_eq _ _ _ _ _

theorem transforms_exists (b r : Reference) : ∃ t, Transforms b r t ∧ ∀ t', Transforms b r t' → t' = t := by
  have hparts : ∃ parts, resolved_parts b r = some parts := by
    unfold resolved_parts
    obtain ⟨out, hout, -⟩ := remove_ends r.path
    obtain ⟨out', hout', -⟩ := remove_ends (merge b r)
    rw [hout, hout']
    split_ifs
    · exact ⟨_, rfl⟩
    · exact ⟨_, rfl⟩
    · exact ⟨_, rfl⟩
    · exact ⟨_, rfl⟩
    · exact ⟨_, rfl⟩
    · exact ⟨_, rfl⟩
  obtain ⟨⟨scheme, authority, path, query⟩, hparts⟩ := hparts
  refine ⟨⟨scheme, authority, path, query, r.fragment⟩, transforms_iff.mpr ⟨rfl, hparts⟩, fun t' ht' => ?_⟩
  obtain ⟨hfragment, hparts'⟩ := transforms_iff.mp ht'
  rw [hparts] at hparts'
  obtain ⟨scheme', authority', path', query', fragment'⟩ := t'
  cases hparts'
  rw [show fragment' = r.fragment from hfragment]

/-! ## The path answered, and the answer resolved again -/

theorem Transforms.noDots (h : Transforms b r t) (hne : r.path ≠ []) : NoDots t.path := by
  have hremoved : ∀ {path path' : Bytes}, Removes path path' → NoDots path' := fun hremoves =>
    noDots_removed ((remove_iff _ _).mpr hremoves)
  cases h with
  | scheme _ hremoves => exact hremoved hremoves
  | authority _ _ hremoves => exact hremoved hremoves
  | query _ _ hp => exact absurd hp hne
  | empty _ _ hp => exact absurd hp hne
  | absolute _ _ _ hremoves => exact hremoved hremoves
  | relative _ _ _ _ _ hremoves => exact hremoved hremoves

/-- Parts with a scheme, put together, that are read back but for a path that begins with `//`. -/
structure Formed (t : Reference) : Prop where
  scheme : ∃ s, t.scheme = some s ∧ IsScheme s
  authority : ∀ a ∈ t.authority, 47 ∉ a ∧ 63 ∉ a ∧ 35 ∉ a
  rooted : t.authority ≠ none → t.path = [] ∨ t.path.head? = some 47
  path : 63 ∉ t.path ∧ 35 ∉ t.path
  query : ∀ q ∈ t.query, 35 ∉ q
  dots : NoDots t.path

theorem Formed.splits (h : Formed t) : ∃ t', Splits t.text t' ∧ t'.scheme ≠ none ∧ NoDots t'.path := by
  obtain ⟨s, hs, hscheme⟩ := h.scheme
  have hsome : t.scheme ≠ none := by
    rw [hs]
    exact some_ne_none s
  have hschemes : ∀ s ∈ t.scheme, IsScheme s := by
    intro s' hs'
    rw [hs] at hs'
    exact some.inj hs' ▸ hscheme
  by_cases hno : t.authority = none → ¬lit "//" <+: t.path
  · refine ⟨t, ?_, hsome, h.dots⟩
    exact {
      whole := rfl
      scheme := hschemes
      no_scheme := fun hn => absurd hn hsome
      authority := h.authority
      no_authority := hno
      rooted := h.rooted
      path := h.path
      query := h.query }
  · -- The path is read back as an authority and the rest of the path.
    push Not at hno
    obtain ⟨hnone, hslashes⟩ := hno
    rcases authority_cut t.path with ⟨a, p, ha, hp, hcut, -⟩ | ⟨hnot, -⟩
    · have hin_authority : ∀ c, c ∉ t.path → c ∉ a := fun c hc hmem =>
        hc (hcut ▸ mem_append_left _ (mem_append_right _ hmem))
      have hin_path : ∀ c, c ∉ t.path → c ∉ p := fun c hc hmem => hc (hcut ▸ mem_append_right _ hmem)
      refine ⟨{ t with authority := some a, path := p }, ?_, hsome, ?_⟩
      · exact {
          whole := by
            unfold Reference.text Reference.front
            rw [hnone, hcut]
            simp only [append_assoc]
            rfl
          scheme := hschemes
          no_scheme := fun hn => absurd hn hsome
          authority := by
            intro a' ha'
            rw [← some.inj ha']
            exact ⟨ha, hin_authority 63 h.path.1, hin_authority 35 h.path.2⟩
          no_authority := fun hn => absurd hn (some_ne_none a)
          rooted := fun _ => hp
          path := ⟨hin_path 63 h.path.1, hin_path 35 h.path.2⟩
          query := h.query }
      · have hdots := h.dots
        rw [hcut] at hdots
        rcases hp with rfl | hp
        · exact noDots_nil
        · cases p with
          | nil => cases hp
          | cons c u =>
            rw [some.inj hp] at hdots ⊢
            exact (noDots_rooted u).mpr ((noDots_append _ u).mp hdots).2
    · exact absurd hslashes hnot

theorem merges_rooted {rel : Bytes} (hb : Splits base b) (ha : b.authority ≠ none) (h : Merges b rel merged) :
    merged.head? = some 47 := by
  cases h with
  | rootless => rfl
  | @after front last hpath =>
    rcases hb.rooted ha with hp | hp
    · rw [hp] at hpath
      exact absurd hpath.symm (append_ne_nil_of_right_ne_nil _ (cons_ne_nil _ _))
    · rw [hpath] at hp
      cases front with
      | nil => rfl
      | cons c u => exact hp
  | alone hauthority hpath =>
    rcases hb.rooted ha with hp | hp
    · exact absurd (hauthority hp) ha
    · exact absurd (mem_of_mem_head? hp) hpath

theorem merges_bytes {rel : Bytes} (h : Merges b rel merged) (hc : c ≠ 47) (hpath : c ∉ b.path) (hrel : c ∉ rel) :
    c ∉ merged := by
  have hslash : ∀ front : Bytes, c ∉ front → c ∉ front ++ lit "/" ++ rel := by
    intro front hfront hmem
    rcases mem_append.mp hmem with hmem | hmem
    · rcases mem_append.mp hmem with hmem | hmem
      · exact hfront hmem
      · exact hc (mem_singleton.mp hmem)
    · exact hrel hmem
  cases h with
  | rootless => exact hslash [] not_mem_nil
  | after hp => exact hslash _ fun hmem => hpath (hp ▸ mem_append_left _ hmem)
  | alone => exact hrel

theorem removes_not_mem {result : Bytes} (h : Removes path result) (hc : c ≠ 47) (hpath : c ∉ path) : c ∉ result := by
  intro hmem
  have hbytes := removed_bytes (p := (· ≠ c)) hc.symm ((remove_iff _ _).mpr h) fun b hb hbc => hpath (hbc ▸ hb)
  exact hbytes c hmem rfl

theorem Transforms.formed {ref : Bytes} (hb : Splits base b) (hr : Splits ref r) (h : Transforms b r t)
    (hscheme : b.scheme ≠ none) (hauthority : b.authority ≠ none) (hne : r.path ≠ []) :
    Formed t := by
  have hdots := h.noDots hne
  have hrooted : r.authority ≠ none → r.path.head? = some 47 := fun ha => (hr.rooted ha).resolve_left hne
  have hfrom_base : ∃ s, b.scheme = some s ∧ IsScheme s := by
    obtain ⟨s, hs⟩ := ne_none_iff_exists'.mp hscheme
    exact ⟨s, hs, hb.scheme s hs⟩
  have hpath : ∀ {path : Bytes}, Removes r.path path → 63 ∉ path ∧ 35 ∉ path := fun hremoves =>
    ⟨removes_not_mem hremoves (by decide) hr.path.1, removes_not_mem hremoves (by decide) hr.path.2⟩
  have hstays : ∀ {path path' : Bytes}, Removes path path' → path.head? = some 47 →
      path' = [] ∨ path'.head? = some 47 := fun hremoves hhead =>
    .inr (removed_rooted ((remove_iff _ _).mpr hremoves) hhead)
  cases h with
  | scheme hs hremoves =>
    obtain ⟨s, hs⟩ := ne_none_iff_exists'.mp hs
    exact ⟨⟨s, hs, hr.scheme s hs⟩, hr.authority, fun ha => hstays hremoves (hrooted ha), hpath hremoves, hr.query, hdots⟩
  | authority hs ha hremoves =>
    exact ⟨hfrom_base, hr.authority, fun _ => hstays hremoves (hrooted ha), hpath hremoves, hr.query, hdots⟩
  | query _ _ hp => exact absurd hp hne
  | empty _ _ hp => exact absurd hp hne
  | absolute hs ha hp hremoves =>
    have hhead : r.path.head? = some 47 := by
      obtain ⟨u, hu⟩ := hp
      rw [← hu]
      rfl
    exact ⟨hfrom_base, hb.authority, fun _ => hstays hremoves hhead, hpath hremoves, hr.query, hdots⟩
  | relative hs ha _ hp hmerges hremoves =>
    refine ⟨hfrom_base, hb.authority, fun _ => hstays hremoves (merges_rooted hb hauthority hmerges), ⟨?_, ?_⟩, hr.query,
      hdots⟩
    · exact removes_not_mem hremoves (by decide) (merges_bytes hmerges (by decide) hb.path.1 hr.path.1)
    · exact removes_not_mem hremoves (by decide) (merges_bytes hmerges (by decide) hb.path.2 hr.path.2)

theorem resolve_settled (base : Bytes) (h : Splits text t) (hs : t.scheme ≠ none)
    (hdots : NoDots t.path) : resolve base text = some text := by
  refine resolve_iff.mpr ⟨t, ?_, h.whole⟩
  rw [← splits_iff.mp h]
  exact .scheme hs ((remove_iff _ _).mp (remove_noDots hdots))

/-- Dot segments taken out: the loop ends, with what the RFC's steps leave and no dot segment, which it leaves as
it is; a path from the root stays one, and a `..` at the root is as if it were not there. -/
theorem dot_segments_removed (path : Bytes) : ∃ result, remove_dot_segments path = some result ∧
    (∀ other, Removes path other ↔ other = result) ∧ NoDots result ∧ remove_dot_segments result = some result ∧
    (path.head? = some 47 → result.head? = some 47) ∧
    (∀ rest, path = lit "/../" ++ rest → remove_dot_segments (lit "/" ++ rest) = some result) := by
  obtain ⟨out, hout, -⟩ := remove_ends path
  have hdots := noDots_removed hout
  refine ⟨out.flatten, hout, fun other => ?_, hdots, remove_noDots hdots, removed_rooted hout, ?_⟩
  · rw [← remove_iff, hout, some_inj]
    exact eq_comm
  · rintro rest rfl
    rwa [← remove_above]

/-- Every reference resolved against every base gives the text of RFC 3986's sections 5.2.2 to 5.3, for the parts
of appendix B; its path has no dot segment unless the reference's is empty; and where the base has a scheme and an
authority and the reference's path is not empty, what is answered resolves to itself. -/
theorem references_resolve :
    (∀ base ref : Bytes, ∃ b r t answer, Splits base b ∧ Splits ref r ∧ Transforms b r t ∧ t.text = answer ∧
      resolve base ref = some answer ∧
      (∀ b' r' t', Splits base b' → Splits ref r' → Transforms b' r' t' → b' = b ∧ r' = r ∧ t' = t) ∧
      (r.path ≠ [] → NoDots t.path) ∧
      (b.scheme ≠ none → b.authority ≠ none → r.path ≠ [] → resolve base answer = some answer)) ∧
    (∀ path : Bytes, ∃ result, remove_dot_segments path = some result ∧
      (∀ other, Removes path other ↔ other = result) ∧ NoDots result ∧ remove_dot_segments result = some result ∧
      (path.head? = some 47 → result.head? = some 47) ∧
      (∀ rest, path = lit "/../" ++ rest → remove_dot_segments (lit "/" ++ rest) = some result)) := by
  refine ⟨fun base ref => ?_, dot_segments_removed⟩
  have hb := splits_split base
  have hr := splits_split ref
  obtain ⟨t, ht, hone⟩ := transforms_exists (split_reference base) (split_reference ref)
  refine ⟨_, _, t, t.text, hb, hr, ht, rfl, resolve_iff.mpr ⟨t, ht, rfl⟩, ?_, ht.noDots, ?_⟩
  · intro b' r' t' hb' hr' ht'
    obtain rfl := splits_iff.mp hb'
    obtain rfl := splits_iff.mp hr'
    exact ⟨rfl, rfl, hone t' ht'⟩
  · intro hscheme hauthority hne
    obtain ⟨t', ht', hs', hdots'⟩ := (ht.formed hb hr hscheme hauthority hne).splits
    exact resolve_settled base ht' hs' hdots'

end Cosmic.Url
