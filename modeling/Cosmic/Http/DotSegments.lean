/-
Dot segments taken out of a path: `remove_dot_segments`, and the rewriting of two buffers that RFC 3986,
5.2.4, gives.

The source keeps its output as a list of segments, the last of which a `..` drops; the RFC's is a text, whose
last segment goes with the `/` before it. Each round of the one is a step of the other.
-/
import Cosmic.Base.Loop
import Cosmic.Base.Text
import Mathlib.Data.List.TakeWhile
import Mathlib.Logic.Relation

set_option autoImplicit false

namespace Cosmic.Url

open Cosmic.Base List Option

/-! ## The loop -/

/-- What `^/?[^/]*` matches. -/
def first_segment : Bytes → Bytes
  | [] => []
  | b :: s => if b = 47 then 47 :: s.takeWhile (· != 47) else (b :: s).takeWhile (· != 47)

/-- One round: what is left of the input, and the segments put out. -/
def remove_round (s : Bytes × List Bytes) : Option (Round (Bytes × List Bytes) Bytes) :=
  let (input, out) := s
  if input = [] then some (.done out.flatten)
  else if input.take 3 = lit "../" then some (.next (input.drop 3, out))
  else if input.take 2 = lit "./" then some (.next (input.drop 2, out))
  else if input.take 3 = lit "/./" then some (.next (input.drop 2, out))
  else if input = lit "/." then some (.next (lit "/", out))
  else if input.take 4 = lit "/../" ∨ input = lit "/.." then some (.next (lit "/" ++ input.drop 4, out.dropLast))
  else if input = lit "." ∨ input = lit ".." then some (.next ([], out))
  else some (.next (input.drop (first_segment input).length, out ++ [first_segment input]))

/-- `path` with its `.` and `..` segments taken out. -/
def remove_dot_segments (path : Bytes) : Option Bytes := loop remove_round (path.length + 1) (path, [])

example : remove_dot_segments (lit "/a/b/c/./../../g") = some (lit "/a/g") := by decide

/-! ## The RFC's steps -/

/-- The inputs whose first segment is a dot segment. -/
def Dotted (input : Bytes) : Prop :=
  lit "../" <+: input ∨ lit "./" <+: input ∨ lit "/./" <+: input ∨ input = lit "/." ∨ lit "/../" <+: input ∨
    input = lit "/.." ∨ input = lit "." ∨ input = lit ".."

/-- `seg` is the first path segment of `seg ++ rest`, with the initial `/` if any, up to the next `/` or the end. -/
structure Leads (seg rest : Bytes) : Prop where
  segment : ∃ x, 47 ∉ x ∧ (seg = 47 :: x ∨ (seg = x ∧ x ≠ []))
  next : rest = [] ∨ rest.head? = some 47

/-- `o'` is `o` without its last segment and the `/` before it, if any. -/
def DropsLast (o o' : Bytes) : Prop := (∃ x, 47 ∉ x ∧ o = o' ++ 47 :: x) ∨ (47 ∉ o ∧ o' = [])

/-- A step of RFC 3986, 5.2.4, on the input buffer and the output buffer. -/
inductive Step : Bytes × Bytes → Bytes × Bytes → Prop
  -- A
  | parent (s o : Bytes) : Step (lit "../" ++ s, o) (s, o)
  | here (s o : Bytes) : Step (lit "./" ++ s, o) (s, o)
  -- B
  | dot (s o : Bytes) : Step (lit "/./" ++ s, o) (lit "/" ++ s, o)
  | last_dot (o : Bytes) : Step (lit "/.", o) (lit "/", o)
  -- C
  | up (s : Bytes) {o o' : Bytes} (h : DropsLast o o') : Step (lit "/../" ++ s, o) (lit "/" ++ s, o')
  | last_up {o o' : Bytes} (h : DropsLast o o') : Step (lit "/..", o) (lit "/", o')
  -- D
  | only_dot (o : Bytes) : Step (lit ".", o) ([], o)
  | only_up (o : Bytes) : Step (lit "..", o) ([], o)
  -- E
  | move {seg rest : Bytes} (o : Bytes) (hdots : ¬Dotted (seg ++ rest)) (h : Leads seg rest) :
      Step (seg ++ rest, o) (rest, o ++ seg)

/-- `result` is what the steps leave of `path`. -/
def Removes (path result : Bytes) : Prop := Relation.ReflTransGen Step (path, []) ([], result)

/-! ## The segments put out -/

/-- The text of a segment that is put out. -/
structure Part (x : Bytes) : Prop where
  slash : 47 ∉ x
  dot : x ≠ lit "."
  up : x ≠ lit ".."

def Rooted (seg : Bytes) : Prop := ∃ x, seg = 47 :: x ∧ Part x

/-- Segments put out: each but the first with its `/`. -/
structure Laid (out : List Bytes) : Prop where
  all : ∀ seg ∈ out, Rooted seg ∨ (Part seg ∧ seg ≠ [])
  tail : ∀ seg ∈ out.tail, Rooted seg

/-- What a round keeps. -/
structure Tidy (input : Bytes) (out : List Bytes) : Prop where
  laid : Laid out
  fed : out ≠ [] → input = [] ∨ input.head? = some 47

theorem laid_nil : Laid [] := ⟨forall_mem_nil _, forall_mem_nil _⟩

theorem tidy_start (path : Bytes) : Tidy path [] := ⟨laid_nil, fun h => absurd rfl h⟩

variable {out : List Bytes}

theorem Laid.dropLast (h : Laid out) : Laid out.dropLast := by
  refine ⟨fun seg hseg => h.all seg ((dropLast_sublist out).subset hseg), fun seg hseg => h.tail seg ?_⟩
  rw [tail_dropLast] at hseg
  exact (dropLast_sublist out.tail).subset hseg

variable {seg : Bytes}

theorem Laid.push (h : Laid out) (hseg : Rooted seg ∨ (Part seg ∧ seg ≠ [])) (hrooted : out ≠ [] → Rooted seg) :
    Laid (out ++ [seg]) := by
  refine ⟨fun s hs => ?_, fun s hs => ?_⟩
  · rcases mem_append.mp hs with hs | hs
    · exact h.all s hs
    · rwa [mem_singleton.mp hs]
  · by_cases hout : out = []
    · subst hout
      cases hs
    · rw [tail_append_of_ne_nil hout] at hs
      rcases mem_append.mp hs with hs | hs
      · exact h.tail s hs
      · rw [mem_singleton.mp hs]
        exact hrooted hout

theorem last_cut {c : UInt8} {a b x y : Bytes} (hx : c ∉ x) (hy : c ∉ y) (h : a ++ c :: x = b ++ c :: y) :
    a = b ∧ x = y := by
  rcases append_eq_append_iff.mp h with ⟨m, rfl, hm⟩ | ⟨m, rfl, hm⟩
  · cases m with
    | nil => exact ⟨(append_nil a).symm, (List.cons.inj hm).2⟩
    | cons d m =>
      exact absurd ((List.cons.inj hm).2 ▸ mem_append_right m mem_cons_self) hx
  · cases m with
    | nil => exact ⟨append_nil b, (List.cons.inj hm).2.symm⟩
    | cons d m =>
      rw [cons_append] at hm
      exact absurd ((List.cons.inj hm).2 ▸ mem_append_right m mem_cons_self) hy

theorem Laid.drops (h : Laid out) (o : Bytes) : DropsLast out.flatten o ↔ o = out.dropLast.flatten := by
  rcases eq_nil_or_concat' out with rfl | ⟨l, seg, rfl⟩
  · constructor
    · rintro (⟨x, -, hx⟩ | ⟨-, rfl⟩)
      · exact absurd hx.symm (append_ne_nil_of_right_ne_nil _ (cons_ne_nil _ _))
      · rfl
    · rintro rfl
      exact .inr ⟨not_mem_nil, rfl⟩
  · rw [dropLast_concat, flatten_append, flatten_singleton]
    have hrooted : Rooted seg ∨ (l = [] ∧ 47 ∉ seg) := by
      rcases h.all seg (mem_append_right l mem_cons_self) with hseg | hseg
      · exact .inl hseg
      · by_cases hl : l = []
        · exact .inr ⟨hl, hseg.1.slash⟩
        · refine .inl (h.tail seg ?_)
          rw [tail_append_of_ne_nil hl]
          exact mem_append_right _ mem_cons_self
    rcases hrooted with ⟨x, rfl, hx⟩ | ⟨rfl, hseg⟩
    · constructor
      · rintro (⟨y, hy, hcut⟩ | ⟨hnone, -⟩)
        · exact (last_cut hx.slash hy hcut).1.symm
        · exact absurd (mem_append_right _ mem_cons_self) hnone
      · rintro rfl
        exact .inl ⟨x, hx.slash, rfl⟩
    · rw [flatten_nil, nil_append]
      constructor
      · rintro (⟨y, -, rfl⟩ | ⟨-, rfl⟩)
        · exact absurd (mem_append_right _ mem_cons_self) hseg
        · rfl
      · rintro rfl
        exact .inr ⟨hseg, rfl⟩

/-! ## One round -/

variable {s : Bytes}

theorem take_of_prefix {p : Bytes} (h : p <+: s) {n : ℕ} (hn : p.length = n) : s.take n = p := by
  obtain ⟨t, rfl⟩ := h
  exact take_left' hn

theorem prefix_of_take {p : Bytes} {n : ℕ} (h : s.take n = p) : p <+: s := h ▸ take_prefix n s

variable {rest : Bytes}

theorem round_move (out : List Bytes) (hdots : ¬Dotted (seg ++ rest)) (h : Leads seg rest) :
    remove_round (seg ++ rest, out) = some (.next (rest, out ++ [seg])) := by
  have hfirst : first_segment (seg ++ rest) = seg := by
    have hrest : rest.takeWhile (· != 47) = [] := by
      rcases h.next with rfl | hhead
      · rfl
      · obtain ⟨b, t, rfl⟩ := exists_cons_of_ne_nil (show rest ≠ [] by rintro rfl; cases hhead)
        rw [some.inj hhead]
        rfl
    have htake : ∀ x : Bytes, 47 ∉ x → (x ++ rest).takeWhile (· != 47) = x := by
      intro x hx
      have hall : ∀ b ∈ x, (b != 47) = true := fun b hb => bne_iff_ne.mpr fun hb' => hx (hb' ▸ hb)
      rw [takeWhile_append_of_pos hall, hrest, append_nil]
    obtain ⟨x, hx, rfl | ⟨rfl, hne⟩⟩ := h.segment
    · rw [cons_append, first_segment, if_pos rfl, htake x hx]
    · obtain ⟨b, s, rfl⟩ := exists_cons_of_ne_nil hne
      rw [cons_append, first_segment, if_neg fun hb : b = 47 => hx (hb ▸ mem_cons_self), ← cons_append, htake _ hx]
  have hne : seg ++ rest ≠ [] := by
    obtain ⟨x, -, rfl | ⟨rfl, hne⟩⟩ := h.segment
    · exact cons_ne_nil _ _
    · exact append_ne_nil_of_left_ne_nil hne _
  unfold Dotted at hdots
  push Not at hdots
  obtain ⟨h₁, h₂, h₃, h₄, h₅, h₆, h₇, h₈⟩ := hdots
  unfold remove_round
  dsimp only
  rw [if_neg hne, if_neg fun h => h₁ (prefix_of_take h), if_neg fun h => h₂ (prefix_of_take h),
    if_neg fun h => h₃ (prefix_of_take h), if_neg h₄,
    if_neg fun h => h.elim (fun h => h₅ (prefix_of_take h)) h₆, if_neg fun h => h.elim h₇ h₈, hfirst, drop_left]

variable {input : Bytes}

theorem round_of_step {input' o' : Bytes} (hlaid : Laid out) (h : Step (input, out.flatten) (input', o')) :
    ∃ out', remove_round (input, out) = some (.next (input', out')) ∧ out'.flatten = o' := by
  generalize ho : out.flatten = o at h
  cases h with
  | parent s => exact ⟨out, rfl, ho⟩
  | here s => exact ⟨out, rfl, ho⟩
  | dot s => exact ⟨out, rfl, ho⟩
  | last_dot => exact ⟨out, rfl, ho⟩
  | up s hdrop => exact ⟨out.dropLast, rfl, ((hlaid.drops o').mp (ho ▸ hdrop)).symm⟩
  | last_up hdrop => exact ⟨out.dropLast, rfl, ((hlaid.drops o').mp (ho ▸ hdrop)).symm⟩
  | only_dot => exact ⟨out, rfl, ho⟩
  | only_up => exact ⟨out, rfl, ho⟩
  | @move seg _ _ hdots hleads =>
    exact ⟨out ++ [seg], round_move out hdots hleads, by rw [flatten_append, ho, flatten_singleton]⟩

theorem leads_exists (hne : input ≠ []) : ∃ seg rest, input = seg ++ rest ∧ Leads seg rest := by
  have hcut : ∀ s : Bytes, 47 ∉ s.takeWhile (· != 47) ∧
      (s.dropWhile (· != 47) = [] ∨ (s.dropWhile (· != 47)).head? = some 47) := by
    intro s
    refine ⟨fun hmem => absurd (mem_takeWhile_imp hmem) (by decide), ?_⟩
    cases hdrop : s.dropWhile (· != 47) with
    | nil => exact .inl rfl
    | cons b t =>
      have hne' : s.dropWhile (· != 47) ≠ [] := by rw [hdrop]; exact cons_ne_nil b t
      have hb := head_dropWhile_not (· != 47) hne'
      simp only [hdrop, head_cons, bne_eq_false_iff_eq] at hb
      exact .inr (congrArg some hb)
  obtain ⟨b, s, rfl⟩ := exists_cons_of_ne_nil hne
  by_cases hb : b = 47
  · subst hb
    refine ⟨47 :: s.takeWhile (· != 47), s.dropWhile (· != 47), ?_, ⟨_, (hcut s).1, .inl rfl⟩, (hcut s).2⟩
    rw [cons_append, takeWhile_append_dropWhile]
  · refine ⟨(b :: s).takeWhile (· != 47), (b :: s).dropWhile (· != 47), takeWhile_append_dropWhile.symm,
      ⟨_, (hcut _).1, .inr ⟨rfl, ?_⟩⟩, (hcut _).2⟩
    have hkept : (b != 47) = true := bne_iff_ne.mpr hb
    rw [takeWhile_cons, if_pos hkept]
    exact cons_ne_nil _ _

theorem Leads.rest_cases (h : Leads seg rest) : rest = [] ∨ ∃ t, rest = 47 :: t := by
  rcases h.next with h | h
  · exact .inl h
  · cases rest with
    | nil => cases h
    | cons b t => exact .inr ⟨t, by rw [some.inj h]⟩

theorem Leads.part (h : Leads seg rest) (hdots : ¬Dotted (seg ++ rest)) : Rooted seg ∨ (Part seg ∧ seg ≠ []) := by
  obtain ⟨x, hx, rfl | ⟨rfl, hne⟩⟩ := h.segment
  · refine .inl ⟨x, rfl, hx, ?_, ?_⟩
    · rintro rfl
      rcases h.rest_cases with rfl | ⟨t, rfl⟩
      · exact hdots (.inr (.inr (.inr (.inl rfl))))
      · exact hdots (.inr (.inr (.inl ⟨t, rfl⟩)))
    · rintro rfl
      rcases h.rest_cases with rfl | ⟨t, rfl⟩
      · exact hdots (.inr (.inr (.inr (.inr (.inr (.inl rfl))))))
      · exact hdots (.inr (.inr (.inr (.inr (.inl ⟨t, rfl⟩)))))
  · refine .inr ⟨⟨hx, ?_, ?_⟩, hne⟩
    · rintro rfl
      rcases h.rest_cases with rfl | ⟨t, rfl⟩
      · exact hdots (.inr (.inr (.inr (.inr (.inr (.inr (.inl rfl)))))))
      · exact hdots (.inr (.inl ⟨t, rfl⟩))
    · rintro rfl
      rcases h.rest_cases with rfl | ⟨t, rfl⟩
      · exact hdots (.inr (.inr (.inr (.inr (.inr (.inr (.inr rfl)))))))
      · exact hdots (.inl ⟨t, rfl⟩)

theorem round_step (h : Tidy input out) (hne : input ≠ []) :
    ∃ input' out', remove_round (input, out) = some (.next (input', out')) ∧
      Step (input, out.flatten) (input', out'.flatten) ∧ Tidy input' out' ∧ input'.length < input.length := by
  have hdrop : DropsLast out.flatten out.dropLast.flatten := (h.laid.drops _).mpr rfl
  -- An input without a `/` at its start comes before every segment.
  have hstart : ∀ {b : UInt8} {s : Bytes}, input = b :: s → b ≠ 47 → out = [] := by
    intro b s hinput hb
    by_contra hout
    rcases h.fed hout with hnil | hhead
    · exact hne hnil
    · rw [hinput] at hhead
      exact hb (some.inj hhead)
  have hless' : ∀ {p q : Bytes}, q.length < p.length → ∀ s : Bytes, (q ++ s).length < (p ++ s).length := by
    intro p q hpq s
    rw [length_append, length_append]
    omega
  have hless : ∀ {p : Bytes}, ([] : Bytes).length < p.length → ∀ s : Bytes, s.length < (p ++ s).length := hless'
  by_cases hdots : Dotted input
  · rcases hdots with ⟨s, rfl⟩ | ⟨s, rfl⟩ | ⟨s, rfl⟩ | rfl | ⟨s, rfl⟩ | rfl | rfl | rfl
    · have hout := hstart rfl (by decide)
      exact ⟨s, out, rfl, .parent s _, ⟨h.laid, fun hn => absurd hout hn⟩, hless (by decide) s⟩
    · have hout := hstart rfl (by decide)
      exact ⟨s, out, rfl, .here s _, ⟨h.laid, fun hn => absurd hout hn⟩, hless (by decide) s⟩
    · exact ⟨lit "/" ++ s, out, rfl, .dot s _, ⟨h.laid, fun _ => .inr rfl⟩, hless' (by decide) s⟩
    · exact ⟨lit "/", out, rfl, .last_dot _, ⟨h.laid, fun _ => .inr rfl⟩, by decide⟩
    · exact ⟨lit "/" ++ s, out.dropLast, rfl, .up s hdrop, ⟨h.laid.dropLast, fun _ => .inr rfl⟩, hless' (by decide) s⟩
    · exact ⟨lit "/", out.dropLast, rfl, .last_up hdrop, ⟨h.laid.dropLast, fun _ => .inr rfl⟩, by decide⟩
    · exact ⟨[], out, rfl, .only_dot _, ⟨h.laid, fun _ => .inl rfl⟩, by decide⟩
    · exact ⟨[], out, rfl, .only_up _, ⟨h.laid, fun _ => .inl rfl⟩, by decide⟩
  · obtain ⟨seg, rest, rfl, hleads⟩ := leads_exists hne
    have hpart := hleads.part hdots
    have hrooted : out ≠ [] → Rooted seg := by
      intro hout
      rcases hpart with hseg | ⟨hseg, hsegne⟩
      · exact hseg
      · obtain ⟨b, s, rfl⟩ := exists_cons_of_ne_nil hsegne
        exact absurd (hstart rfl fun hb => hseg.slash (hb ▸ mem_cons_self)) hout
    have hsegne : seg ≠ [] := by
      rcases hpart with ⟨x, rfl, -⟩ | ⟨-, hsegne⟩
      · exact cons_ne_nil _ _
      · exact hsegne
    refine ⟨rest, out ++ [seg], round_move out hdots hleads, ?_, ⟨h.laid.push hpart hrooted, fun _ => hleads.next⟩, ?_⟩
    · rw [flatten_append, flatten_singleton]
      exact .move _ hdots hleads
    · have := length_pos_iff.mpr hsegne
      rw [length_append]
      omega

/-! ## Whole runs -/

theorem round_done (out : List Bytes) : remove_round ([], out) = some (.done out.flatten) := rfl

theorem loop_removes (h : Tidy input out) {fuel : ℕ} (hfuel : input.length < fuel) :
    ∃ out', loop remove_round fuel (input, out) = some out'.flatten ∧ Laid out' ∧
      Relation.ReflTransGen Step (input, out.flatten) ([], out'.flatten) := by
  induction fuel generalizing input out with
  | zero => exact absurd hfuel (Nat.not_lt_zero _)
  | succ fuel ih =>
    by_cases hinput : input = []
    · subst hinput
      exact ⟨out, by rw [loop, round_done], h.laid, .refl⟩
    · obtain ⟨input', out', hround, hstep, htidy, hless⟩ := round_step h hinput
      obtain ⟨last, hlast, hlaid, hsteps⟩ := ih htidy (by omega)
      exact ⟨last, by rw [loop, hround]; exact hlast, hlaid, .head hstep hsteps⟩

variable {result : Bytes}

theorem removes_unique {s : Bytes × Bytes} (h : Relation.ReflTransGen Step s ([], result)) (htidy : Tidy s.1 out)
    (hout : out.flatten = s.2) {fuel : ℕ} (hfuel : s.1.length < fuel) :
    loop remove_round fuel (s.1, out) = some result := by
  induction h using Relation.ReflTransGen.head_induction_on generalizing out fuel with
  | refl =>
    obtain ⟨fuel, rfl⟩ : ∃ n, fuel = n + 1 := ⟨fuel - 1, by simp at hfuel; omega⟩
    rw [loop, round_done, hout]
  | @head s s' hstep _ ih =>
    obtain ⟨input, o⟩ := s
    obtain ⟨input', o'⟩ := s'
    dsimp only at htidy hout hfuel ih ⊢
    subst hout
    obtain ⟨out', hround, rfl⟩ := round_of_step htidy.laid hstep
    have hinput : input ≠ [] := by
      rintro rfl
      cases hround
    obtain ⟨input'', out'', hround', -, htidy', hless⟩ := round_step htidy hinput
    rw [hround] at hround'
    cases hround'
    obtain ⟨fuel, rfl⟩ : ∃ n, fuel = n + 1 := ⟨fuel - 1, by omega⟩
    rw [loop, hround]
    exact ih htidy' rfl (by omega)

theorem remove_ends (path : Bytes) :
    ∃ out, remove_dot_segments path = some out.flatten ∧ Laid out ∧ Removes path out.flatten :=
  loop_removes (tidy_start path) (Nat.lt_succ_self _)

theorem remove_iff (path result : Bytes) : remove_dot_segments path = some result ↔ Removes path result := by
  constructor
  · intro h
    obtain ⟨out, hout, -, hremoves⟩ := remove_ends path
    rw [hout] at h
    exact some.inj h ▸ hremoves
  · intro h
    exact removes_unique h (tidy_start path) rfl (Nat.lt_succ_self _)

/-! ## Paths without dot segments -/

/-- No segment of the path is `.` or `..`. -/
def NoDots (path : Bytes) : Prop := ∀ x ∈ path.splitOn 47, x ≠ lit "." ∧ x ≠ lit ".."

theorem noDots_append (s t : Bytes) : NoDots (s ++ 47 :: t) ↔ NoDots s ∧ NoDots t := by
  unfold NoDots
  rw [splitOn_append_cons_self]
  exact forall_mem_append

theorem noDots_nil : NoDots [] := by
  intro x hx
  rw [splitOn_nil, mem_singleton] at hx
  subst hx
  exact ⟨by decide, by decide⟩

theorem noDots_rooted (t : Bytes) : NoDots (47 :: t) ↔ NoDots t := by
  have h := noDots_append [] t
  exact h.trans ⟨fun h => h.2, fun h => ⟨noDots_nil, h⟩⟩

theorem Part.noDots {x : Bytes} (h : Part x) : NoDots x := by
  intro y hy
  rw [splitOn_eq_singleton h.slash, mem_singleton] at hy
  subst hy
  exact ⟨h.dot, h.up⟩

theorem noDots_rooted_segments {segs : List Bytes} (h : ∀ seg ∈ segs, Rooted seg) (hs : NoDots s) :
    NoDots (s ++ segs.flatten) := by
  induction segs generalizing s with
  | nil => rwa [flatten_nil, append_nil]
  | cons seg segs ih =>
    obtain ⟨⟨x, rfl, hx⟩, hrest⟩ := forall_mem_cons.mp h
    rw [flatten_cons, cons_append, noDots_append]
    exact ⟨hs, ih hrest hx.noDots⟩

theorem Laid.noDots (h : Laid out) : NoDots out.flatten := by
  cases out with
  | nil => exact noDots_nil
  | cons seg segs =>
    rw [flatten_cons]
    refine noDots_rooted_segments h.tail ?_
    rcases h.all seg mem_cons_self with ⟨x, rfl, hx⟩ | ⟨hx, -⟩
    · exact (noDots_rooted x).mpr hx.noDots
    · exact hx.noDots

theorem Dotted.dots (h : Dotted input) : ¬NoDots input := by
  have hcut : ∀ x t : Bytes, (x = lit "." ∨ x = lit "..") → ¬NoDots (x ++ 47 :: t) ∧ ¬NoDots (47 :: (x ++ 47 :: t)) ∧
      ¬NoDots x ∧ ¬NoDots (47 :: x) := by
    intro x t hx
    have hbad : ¬NoDots x := by
      intro hnd
      have hslash : 47 ∉ x := by
        rcases hx with rfl | rfl
        · decide
        · decide
      have hmem : x ∈ x.splitOn 47 := by
        rw [splitOn_eq_singleton hslash]
        exact mem_singleton_self x
      rcases hx with rfl | rfl
      · exact (hnd _ hmem).1 rfl
      · exact (hnd _ hmem).2 rfl
    rw [noDots_append, noDots_rooted, noDots_append, noDots_rooted]
    exact ⟨fun h => hbad h.1, fun h => hbad h.1, hbad, hbad⟩
  rcases h with ⟨s, rfl⟩ | ⟨s, rfl⟩ | ⟨s, rfl⟩ | rfl | ⟨s, rfl⟩ | rfl | rfl | rfl
  · exact (hcut (lit "..") s (.inr rfl)).1
  · exact (hcut (lit ".") s (.inl rfl)).1
  · exact (hcut (lit ".") s (.inl rfl)).2.1
  · exact (hcut (lit ".") [] (.inl rfl)).2.2.2
  · exact (hcut (lit "..") s (.inr rfl)).2.1
  · exact (hcut (lit "..") [] (.inr rfl)).2.2.2
  · exact (hcut (lit ".") [] (.inl rfl)).2.2.1
  · exact (hcut (lit "..") [] (.inr rfl)).2.2.1

theorem noDots_steps (h : NoDots input) (o : Bytes) : Relation.ReflTransGen Step (input, o) ([], o ++ input) := by
  induction hn : input.length using Nat.strong_induction_on generalizing input o with
  | _ n ih =>
    by_cases hinput : input = []
    · subst hinput
      rw [append_nil]
    obtain ⟨seg, rest, rfl, hleads⟩ := leads_exists hinput
    have hdots : ¬Dotted (seg ++ rest) := fun hd => hd.dots h
    have hrest : NoDots rest := by
      rcases hleads.rest_cases with rfl | ⟨t, rfl⟩
      · exact noDots_nil
      · exact (noDots_rooted t).mpr ((noDots_append seg t).mp h).2
    have hseg : 0 < seg.length := by
      obtain ⟨x, -, rfl | ⟨rfl, hne⟩⟩ := hleads.segment
      · exact Nat.succ_pos _
      · exact length_pos_iff.mpr hne
    have hsteps := ih rest.length (by rw [← hn, length_append]; omega) hrest (o ++ seg) rfl
    rw [append_assoc] at hsteps
    exact .head (.move o hdots hleads) hsteps

variable {path : Bytes}

theorem remove_noDots (h : NoDots path) : remove_dot_segments path = some path :=
  (remove_iff path path).mpr (noDots_steps h [])

theorem noDots_removed (h : remove_dot_segments path = some result) : NoDots result := by
  obtain ⟨out, hout, hlaid, -⟩ := remove_ends path
  rw [hout] at h
  exact some.inj h ▸ hlaid.noDots

/-! ## What the steps keep -/

/-- What the output begins with, or the input where nothing is put out. -/
def Starts (s : Bytes × Bytes) : Prop := (s.2 = [] → s.1.head? = some 47) ∧ (s.2 ≠ [] → s.2.head? = some 47)

theorem DropsLast.head {o o' : Bytes} (h : DropsLast o o') (hne : o' ≠ []) : o ≠ [] ∧ o.head? = o'.head? := by
  rcases h with ⟨x, -, rfl⟩ | ⟨-, rfl⟩
  · obtain ⟨b, t, rfl⟩ := exists_cons_of_ne_nil hne
    exact ⟨cons_ne_nil _ _, rfl⟩
  · exact absurd rfl hne

theorem Step.starts {s s' : Bytes × Bytes} (h : Step s s') (hs : Starts s) : Starts s' := by
  obtain ⟨hempty, hput⟩ := hs
  have hdot : some (46 : UInt8) ≠ some 47 := by decide
  cases h with
  | parent => exact ⟨fun ho => absurd (hempty ho) hdot, hput⟩
  | here => exact ⟨fun ho => absurd (hempty ho) hdot, hput⟩
  | dot => exact ⟨fun _ => rfl, hput⟩
  | last_dot => exact ⟨fun _ => rfl, hput⟩
  | up _ hdrop => exact ⟨fun _ => rfl, fun hne => (hdrop.head hne).2 ▸ hput (hdrop.head hne).1⟩
  | last_up hdrop => exact ⟨fun _ => rfl, fun hne => (hdrop.head hne).2 ▸ hput (hdrop.head hne).1⟩
  | only_dot => exact ⟨fun ho => absurd (hempty ho) hdot, hput⟩
  | only_up => exact ⟨fun ho => absurd (hempty ho) hdot, hput⟩
  | @move seg rest o _ hleads =>
    have hseg : seg ≠ [] := by
      obtain ⟨x, -, rfl | ⟨rfl, hne⟩⟩ := hleads.segment
      · exact cons_ne_nil _ _
      · exact hne
    refine ⟨fun ho => absurd (append_eq_nil_iff.mp ho).2 hseg, fun _ => ?_⟩
    by_cases ho : o = []
    · subst ho
      have hhead := hempty rfl
      obtain ⟨b, t, rfl⟩ := exists_cons_of_ne_nil hseg
      exact hhead
    · have hhead := hput ho
      obtain ⟨b, t, rfl⟩ := exists_cons_of_ne_nil ho
      exact hhead

/-- A path from the root stays one: a `..` at the root does not climb above it. -/
theorem removed_rooted (h : remove_dot_segments path = some result) (hpath : path.head? = some 47) :
    result.head? = some 47 := by
  have hremoves := (remove_iff path result).mp h
  have hstarts : Starts ([], result) := by
    refine Relation.ReflTransGen.head_induction_on (motive := fun s _ => Starts s → Starts ([], result)) hremoves
      (fun hs => hs) (fun hstep _ ih hs => ih (hstep.starts hs)) ⟨fun _ => hpath, fun hne => absurd rfl hne⟩
  by_cases hresult : result = []
  · exact nomatch hstarts.1 hresult
  · exact hstarts.2 hresult

/-- At the root a `..` is dropped. -/
theorem remove_above (s : Bytes) : remove_dot_segments (lit "/../" ++ s) = remove_dot_segments (lit "/" ++ s) := by
  obtain ⟨out, hout, -, hremoves⟩ := remove_ends (lit "/" ++ s)
  have hdrop : DropsLast [] [] := .inr ⟨not_mem_nil, rfl⟩
  rw [hout]
  exact (remove_iff _ _).mpr (.head (.up s hdrop) hremoves)

def Bytewise (p : UInt8 → Prop) (s : Bytes × Bytes) : Prop := (∀ b ∈ s.1, p b) ∧ ∀ b ∈ s.2, p b

theorem Step.bytewise {p : UInt8 → Prop} (hslash : p 47) {s s' : Bytes × Bytes} (h : Step s s')
    (hs : Bytewise p s) : Bytewise p s' := by
  have hrooted : ∀ s : Bytes, (∀ b ∈ s, p b) → ∀ b ∈ lit "/" ++ s, p b := by
    intro s hs b hb
    rcases mem_cons.mp hb with rfl | hb
    · exact hslash
    · exact hs b hb
  have hdropped : ∀ o o' : Bytes, DropsLast o o' → (∀ b ∈ o, p b) → ∀ b ∈ o', p b := by
    rintro o o' (⟨x, -, rfl⟩ | ⟨-, rfl⟩) ho
    · exact fun b hb => ho b (mem_append_left _ hb)
    · exact forall_mem_nil _
  obtain ⟨hi, ho⟩ := hs
  cases h with
  | parent s => exact ⟨fun b hb => hi b (mem_append_right _ hb), ho⟩
  | here s => exact ⟨fun b hb => hi b (mem_append_right _ hb), ho⟩
  | dot s => exact ⟨hrooted s fun b hb => hi b (mem_append_right _ hb), ho⟩
  | last_dot => exact ⟨hrooted [] (forall_mem_nil _), ho⟩
  | up s hdrop => exact ⟨hrooted s fun b hb => hi b (mem_append_right _ hb), hdropped _ _ hdrop ho⟩
  | last_up hdrop => exact ⟨hrooted [] (forall_mem_nil _), hdropped _ _ hdrop ho⟩
  | only_dot => exact ⟨forall_mem_nil _, ho⟩
  | only_up => exact ⟨forall_mem_nil _, ho⟩
  | move o =>
    refine ⟨fun b hb => hi b (mem_append_right _ hb), fun b hb => ?_⟩
    rcases mem_append.mp hb with hb | hb
    · exact ho b hb
    · exact hi b (mem_append_left _ hb)

/-- The bytes of a path without its dot segments are the path's, and `/`. -/
theorem removed_bytes {p : UInt8 → Prop} (hslash : p 47) (h : remove_dot_segments path = some result)
    (hpath : ∀ b ∈ path, p b) : ∀ b ∈ result, p b := by
  have hremoves := (remove_iff path result).mp h
  have hbytes : Bytewise p ([], result) := by
    refine Relation.ReflTransGen.head_induction_on (motive := fun s _ => Bytewise p s → Bytewise p ([], result))
      hremoves (fun hs => hs) (fun hstep _ ih hs => ih (hstep.bytewise hslash hs)) ⟨hpath, forall_mem_nil _⟩
  exact hbytes.2

end Cosmic.Url
