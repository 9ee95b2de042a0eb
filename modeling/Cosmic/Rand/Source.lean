/-
The generator of a seeded source: `Rand.new`, and the states its draws go through.

No step that spreads a seed loses anything, and no draw does: sources that begin apart stay apart.
-/
import Cosmic.Rand.Uniform

set_option autoImplicit false

namespace Cosmic.Rand

open Function

structure State where
  s0 : Word
  s1 : Word
  s2 : Word
  s3 : Word

def rotl (x : Word) (k : ℕ) : Word := x <<< k ||| x >>> (64 - k)

/-- The next 64 bits, and the state after them. -/
def next64 (st : State) : Word × State :=
  let result := rotl (st.s1 * 5) 7 * 9
  let t := st.s1 <<< 17
  let s2 := st.s2 ^^^ st.s0
  let s3 := st.s3 ^^^ st.s1
  let s1 := st.s1 ^^^ s2
  let s0 := st.s0 ^^^ s3
  (result, { s0, s1, s2 := s2 ^^^ t, s3 := rotl s3 45 })

/-- The next state and its output. -/
def splitmix (x : Word) : Word × Word :=
  let x := x + 0x9e3779b97f4a7c15
  let z := (x ^^^ x >>> 30) * 0xbf58476d1ce4e5b9
  let z := (z ^^^ z >>> 27) * 0x94d049bb133111eb
  (x, z ^^^ z >>> 31)

/-- The state of `Rand.new(seed)`. -/
def new (seed : Word) : State :=
  let (x, s0) := splitmix seed
  let (x, s1) := splitmix x
  let (x, s2) := splitmix x
  let (_, s3) := splitmix x
  { s0, s1, s2, s3 }

/-- The state after a draw. -/
def advance (st : State) : State := (next64 st).2

def zeros : State := ⟨0, 0, 0, 0⟩

/-! ## Steps that lose nothing -/

theorem xor_swap {x y u v : Word} (h : x ^^^ u = y ^^^ v) : u ^^^ v = x ^^^ y := by
  calc
    u ^^^ v = x ^^^ (x ^^^ u) ^^^ v := by rw [← BitVec.xor_assoc x, BitVec.xor_self, BitVec.zero_xor]
    _ = x ^^^ y := by rw [h, BitVec.xor_assoc, BitVec.xor_assoc, BitVec.xor_self, BitVec.xor_zero]

theorem xor_shift_injective {k : ℕ} (hk : ∀ x : Word, x >>> k = x → x = 0) : Injective fun x : Word => x ^^^ x >>> k := by
  intro x y h
  have hfixed := xor_swap h
  rw [← BitVec.ushiftRight_xor_distrib] at hfixed
  exact BitVec.xor_eq_zero_iff.mp (hk _ hfixed)

theorem splitmix_injective : Injective fun x => (splitmix x).2 := by
  have hmul : ∀ c d : Word, c * d = 1 → Injective (· * c) := fun c d h => (IsUnit.of_mul_eq_one d h).mul_left_injective
  have hfirst := (hmul 0xbf58476d1ce4e5b9 0x96de1b173f119089 (by decide)).comp
    (xor_shift_injective (k := 30) fun x hx => by bv_omega)
  have hnext := (hmul 0x94d049bb133111eb 0x319642b2d24d8ec3 (by decide)).comp
    (xor_shift_injective (k := 27) fun x hx => by bv_omega)
  have hlast := xor_shift_injective (k := 31) fun x hx => by bv_omega
  exact hlast.comp (hnext.comp (hfirst.comp (add_left_injective _)))

theorem rotl_injective {k : ℕ} (hk : k ≤ 64) : Injective fun x => rotl x k := by
  intro x y h
  have hbit := fun j => congrArg (fun z : Word => z.getLsbD j) h
  refine BitVec.eq_of_getLsbD_eq fun i hi => ?_
  unfold rotl at hbit
  by_cases hlow : i + k < 64
  · have := hbit (i + k)
    simp at this
    grind
  · have := hbit (i + k - 64)
    simp at this
    grind

theorem advance_injective : Injective advance := by
  rintro ⟨a0, a1, a2, a3⟩ ⟨b0, b1, b2, b3⟩ h
  obtain ⟨h0, h1, h2, h3⟩ := State.mk.inj h
  dsimp only at h0 h1 h2 h3
  have h31 : a3 ^^^ a1 = b3 ^^^ b1 := rotl_injective (by decide) h3
  have hfixed := (xor_swap h2).trans (xor_swap h1)
  rw [← BitVec.shiftLeft_xor_distrib] at hfixed
  obtain rfl : a1 = b1 := BitVec.xor_eq_zero_iff.mp (by bv_omega)
  obtain rfl : a3 = b3 := (BitVec.xor_left_inj _).mp h31
  obtain rfl : a0 = b0 := (BitVec.xor_left_inj _).mp h0
  obtain rfl : a2 = b2 := (BitVec.xor_left_inj _).mp ((BitVec.xor_right_inj _).mp h1)
  rfl

theorem new_ne_zeros (seed : Word) : new seed ≠ zeros := by
  intro h
  have h0 : (splitmix seed).2 = 0 := congrArg State.s0 h
  have h1 : (splitmix (seed + 0x9e3779b97f4a7c15)).2 = 0 := congrArg State.s1 h
  have := splitmix_injective (h0.trans h1.symm)
  simp at this

/-- However much is drawn, two seeds' sources are not in one state, nor is any in the state that draws only zeros. -/
theorem seeds_apart (n : ℕ) : (Injective fun seed => advance^[n] (new seed)) ∧ ∀ seed, advance^[n] (new seed) ≠ zeros := by
  have hinjective := advance_injective.iterate n
  refine ⟨hinjective.comp fun a b h => splitmix_injective (congrArg State.s0 h), fun seed h => ?_⟩
  have hzeros : advance^[n] zeros = zeros := iterate_fixed rfl n
  exact new_ne_zeros seed (hinjective (h.trans hzeros.symm))

end Cosmic.Rand
