/-
The SOCKS5 readers: what they decide they decide for good, and they are done with whole messages only.
-/
import Cosmic.Relay.Authority
import Cosmic.Relay.Socks

set_option autoImplicit false

namespace Cosmic.Wire

open Cosmic.Base List Except

/-! ## Bytes by position -/

theorem byte_at_succ (s : Bytes) (k : ℕ) : byte_at s (k + 1) = s[k]?.getD 0 := rfl

theorem byte_at_append {buf : Bytes} (more : Bytes) {k : ℕ} (hk : 0 < k) (h : k ≤ buf.length) :
    byte_at (buf ++ more) k = byte_at buf k := by
  obtain ⟨i, rfl⟩ := Nat.exists_eq_succ_of_ne_zero hk.ne'
  rw [byte_at_succ, byte_at_succ, getElem?_append_left h]

theorem byte_at_middle (w : Bytes) (b : UInt8) (s : Bytes) {k : ℕ} (h : w.length + 1 = k) :
    byte_at (w ++ b :: s) k = b := by
  rw [← h, byte_at_succ, getElem?_append_right le_rfl, Nat.sub_self]
  rfl

theorem sub_append {buf : Bytes} (more : Bytes) (i : ℕ) {j : ℕ} (h : j ≤ buf.length) :
    sub (buf ++ more) i j = sub buf i j := by
  unfold sub
  rw [take_append_of_le_length h]

theorem sub_middle (w x s : Bytes) {i j : ℕ} (hi : w.length + 1 = i) (hj : w.length + x.length = j) :
    sub (w ++ (x ++ s)) i j = x := by
  rw [← hi, ← hj]
  unfold sub
  rw [Nat.add_sub_cancel, ← append_assoc, ← length_append, take_left, drop_left]

/-- The first `n` bytes of a text, and the rest. -/
theorem exists_split {s : Bytes} {n : ℕ} (h : n ≤ s.length) : ∃ w t, s = w ++ t ∧ w.length = n :=
  ⟨s.take n, s.drop n, (take_append_drop n s).symm, length_take_of_le h⟩

theorem exists_cons {s : Bytes} (h : 1 ≤ s.length) : ∃ b t, s = b :: t := exists_cons_of_length_pos h

/-! ## A reading is final -/

section

variable (buf more : Bytes)

theorem read_greeting_settled (password : Bool) :
    Settled (·.status ≠ .more) (read_greeting buf password) (read_greeting (buf ++ more) password) := by
  refine Settled.need more (fun h => h rfl) fun h₁ => ?_
  rw [byte_at_append more Nat.one_pos h₁]
  refine Settled.test (fun _ => Settled.refl _) fun _ => ?_
  refine Settled.need more (fun h => h rfl) fun h₂ => ?_
  rw [byte_at_append more Nat.two_pos h₂]
  refine Settled.test (fun _ => Settled.refl _) fun _ => ?_
  refine Settled.need more (fun h => h rfl) fun h₃ => ?_
  rw [sub_append more 3 h₃]
  exact Settled.test (fun _ => Settled.refl _) fun _ => Settled.refl _

theorem read_auth_settled : Settled (·.status ≠ .more) (read_auth buf) (read_auth (buf ++ more)) := by
  refine Settled.need more (fun h => h rfl) fun h₁ => ?_
  rw [byte_at_append more Nat.one_pos h₁]
  refine Settled.test (fun _ => Settled.refl _) fun _ => ?_
  refine Settled.need more (fun h => h rfl) fun h₂ => ?_
  rw [byte_at_append more Nat.two_pos h₂]
  refine Settled.test (fun _ => Settled.refl _) fun _ => ?_
  refine Settled.need more (fun h => h rfl) fun h₃ => ?_
  rw [byte_at_append more (by omega) (by omega : 3 + (byte_at buf 2).toNat ≤ buf.length)]
  refine Settled.test (fun _ => Settled.refl _) fun _ => ?_
  refine Settled.need more (fun h => h rfl) fun h₄ => ?_
  rw [sub_append more _ h₄, sub_append more 3 (by omega)]
  exact Settled.refl _

variable {buf} in
theorem request_groups_append (h : 20 ≤ buf.length) : request_groups (buf ++ more) = request_groups buf := by
  have hmap : ((List.range 8).map fun i => hex ((byte_at (buf ++ more) (5 + 2 * i)).toNat * 256 +
      (byte_at (buf ++ more) (6 + 2 * i)).toNat)) = (List.range 8).map fun i =>
        hex ((byte_at buf (5 + 2 * i)).toNat * 256 + (byte_at buf (6 + 2 * i)).toNat) := by
    apply map_congr_left
    intro i hi
    have hlt : i < 8 := mem_range.mp hi
    rw [byte_at_append more (by omega) (by omega), byte_at_append more (by omega) (by omega)]
  unfold request_groups
  rw [hmap]

/-- What of a request's host is decided: the host, and an answer that is not to wait. -/
def HostDecided {β : Type} {α : Type} (status : α → Status) (r : Except α β) : Prop :=
  ∀ a, r = .error a → status a ≠ .more

theorem request_host_settled (h₄ : 4 ≤ buf.length) :
    Settled (HostDecided SocksRequest.status) (request_host buf) (request_host (buf ++ more)) := by
  have hwait : ∀ {β : Type}, ¬HostDecided SocksRequest.status
      (.error { status := .more, consumed := 0 } : Except SocksRequest β) := fun h => h _ rfl rfl
  unfold request_host
  rw [byte_at_append more (by omega) h₄]
  refine Settled.test (fun _ => ?_) fun _ => Settled.test (fun _ => ?_) fun _ =>
    Settled.test (fun _ => ?_) fun _ => Settled.refl _
  · refine Settled.need more hwait fun h₈ => ?_
    have hmap : ([5, 6, 7, 8].map fun i => tostring (byte_at (buf ++ more) i).toNat) =
        [5, 6, 7, 8].map fun i => tostring (byte_at buf i).toNat := by
      apply map_congr_left
      intro i hi
      have hle : 5 ≤ i ∧ i ≤ 8 := by
        simp only [mem_cons, not_mem_nil, or_false] at hi
        omega
      rw [byte_at_append more (by omega) (by omega)]
    rw [hmap]
    exact Settled.refl _
  · refine Settled.need more hwait fun h₂₀ => ?_
    rw [request_groups_append more h₂₀]
    exact Settled.refl _
  · refine Settled.need more hwait fun h₅ => ?_
    rw [byte_at_append more (by omega) h₅]
    refine Settled.test (fun _ => Settled.refl _) fun _ => ?_
    refine Settled.need more hwait fun hlen => ?_
    rw [sub_append more 6 hlen]
    exact Settled.refl _

variable {buf} in
theorem request_host_at {host : Bytes} {kind : Kind} {at_ : ℕ}
    (h : request_host buf = .ok (host, kind, at_)) : 0 < at_ := by
  unfold request_host at h
  dsimp only at h
  split at h
  · split at h
    · cases h
    · have hat : 9 = at_ := congrArg (fun found : Bytes × Kind × ℕ => found.2.2) (ok.inj h)
      omega
  split at h
  · split at h
    · cases h
    · split at h
      · cases h
      · have hat : 21 = at_ := congrArg (fun found : Bytes × Kind × ℕ => found.2.2) (ok.inj h)
        omega
  · split at h
    · split at h
      · cases h
      split at h
      · cases h
      split at h
      · cases h
      · split at h
        · cases h
        · have hat : 6 + (byte_at buf 5).toNat = at_ :=
            congrArg (fun found : Bytes × Kind × ℕ => found.2.2) (ok.inj h)
          omega
    · cases h

theorem read_request_settled : Settled (·.status ≠ .more) (read_request buf) (read_request (buf ++ more)) := by
  refine Settled.need more (fun h => h rfl) fun h₁ => ?_
  rw [byte_at_append more Nat.one_pos h₁]
  refine Settled.test (fun _ => Settled.refl _) fun _ => ?_
  refine Settled.need more (fun h => h rfl) fun h₂ => ?_
  rw [byte_at_append more Nat.two_pos h₂]
  refine Settled.test (fun _ => Settled.refl _) fun _ => ?_
  refine Settled.need more (fun h => h rfl) fun h₃ => ?_
  rw [byte_at_append more (by omega) h₃]
  refine Settled.test (fun _ => Settled.refl _) fun _ => ?_
  refine Settled.need more (fun h => h rfl) fun h₄ => ?_
  have hhost := request_host_settled buf more h₄
  cases hr : request_host buf with
  | error answer =>
    intro hd
    rw [hhost fun a ha => by rw [hr] at ha; rwa [← error.inj ha], hr]
  | ok found =>
    obtain ⟨host, kind, at_⟩ := found
    rw [hhost fun a ha => by rw [hr] at ha; exact absurd ha (by simp), hr]
    have hpos : 0 < at_ := request_host_at hr
    refine Settled.need more (fun h => h rfl) fun hport => ?_
    rw [byte_at_append more hpos (by omega), byte_at_append more (by omega) hport]
    exact Settled.refl _

theorem read_method_answer_settled (password : Bool) : Settled (·.status ≠ .more) (read_method_answer buf password)
      (read_method_answer (buf ++ more) password) := by
  refine Settled.need more (fun h => h rfl) fun h₁ => ?_
  rw [byte_at_append more Nat.one_pos h₁]
  refine Settled.test (fun _ => Settled.refl _) fun _ => ?_
  refine Settled.need more (fun h => h rfl) fun h₂ => ?_
  rw [byte_at_append more Nat.two_pos h₂]
  exact Settled.refl _

theorem read_auth_answer_settled :
    Settled (·.status ≠ .more) (read_auth_answer buf) (read_auth_answer (buf ++ more)) := by
  refine Settled.need more (fun h => h rfl) fun h₁ => ?_
  rw [byte_at_append more Nat.one_pos h₁]
  refine Settled.test (fun _ => Settled.refl _) fun _ => ?_
  refine Settled.need more (fun h => h rfl) fun h₂ => ?_
  rw [byte_at_append more Nat.two_pos h₂]
  exact Settled.refl _

theorem answer_width_settled (h₄ : 4 ≤ buf.length) :
    Settled (HostDecided SocksAnswer.status) (answer_width buf) (answer_width (buf ++ more)) := by
  unfold answer_width
  rw [byte_at_append more (by omega) h₄]
  refine Settled.test (fun _ => Settled.refl _) fun _ => Settled.test (fun _ => Settled.refl _)
    fun _ => Settled.test (fun _ => ?_) fun _ => Settled.refl _
  refine Settled.need more (fun h => h _ rfl rfl) fun h₅ => ?_
  rw [byte_at_append more (by omega) h₅]
  exact Settled.refl _

theorem read_answer_settled : Settled (·.status ≠ .more) (read_answer buf) (read_answer (buf ++ more)) := by
  refine Settled.need more (fun h => h rfl) fun h₁ => ?_
  rw [byte_at_append more Nat.one_pos h₁]
  refine Settled.test (fun _ => Settled.refl _) fun _ => ?_
  refine Settled.need more (fun h => h rfl) fun h₃ => ?_
  rw [byte_at_append more (by omega) h₃]
  refine Settled.test (fun _ => Settled.refl _) fun _ => ?_
  refine Settled.need more (fun h => h rfl) fun h₄ => ?_
  have hwidth := answer_width_settled buf more h₄
  cases hr : answer_width buf with
  | error answer =>
    intro hd
    rw [hwidth fun a ha => by rw [hr] at ha; rwa [← error.inj ha], hr]
  | ok width =>
    rw [hwidth fun a ha => by rw [hr] at ha; exact absurd ha (by simp), hr]
    refine Settled.need more (fun h => h rfl) fun htotal => ?_
    rw [byte_at_append more Nat.two_pos (by omega)]
    exact Settled.refl _

end

end Cosmic.Wire
