/-
The connector's seccomp program is its policy.

The program is a head, one block of twelve instructions a range, and a refusal. Each block is given
its meaning once, whatever follows it: it answers, or it goes on to what follows. The dispatch jumps
over whole blocks, so that its offsets are lengths of blocks.
-/
import Cosmic.Core.ConnectorFilter
import Mathlib.Data.Fin.VecNotation
import Mathlib.Data.Nat.Bitwise

set_option autoImplicit false

namespace Cosmic.Connector

open Cosmic.Base.Bpf List Function Nat

/-! ## The layout of the program -/

/-- A buffer of what `S` and then `X` hold. -/
def buffer (S X : List Insn) : Code := ⟨S ++ X, S.length + X.length⟩

theorem run_seq {α β : Type} {m : StateM Code α} {f : α → StateM Code β} {code code' : Code} {v : α}
    {r : β × Code} (h : m.run code = (v, code')) (h' : (f v).run code' = r) :
    (m >>= f).run code = r := by
  rwa [StateT.run_bind, h]

/-- What appends `block` wherever there is room for it. -/
structure Emits (m : StateM Code Unit) (block : List Insn) : Prop where
  appends : ∀ S X : List Insn, S.length + X.length + block.length ≤ CONNECTOR_INSNS →
    m.run (buffer S X) = ((), buffer S (X ++ block))

theorem emits_insn (op : UInt16) (jt jf : UInt8) (k : UInt32) :
    Emits (connector_emit op jt jf k) [⟨op, jt, jf, k⟩] := by
  constructor
  intro S X hroom
  have hlt : S.length + X.length < CONNECTOR_INSNS := lt_of_succ_le hroom
  show ((), Code.mk (if S.length + X.length < CONNECTOR_INSNS then S ++ X ++ _ else S ++ X)
    (S.length + X.length + 1)) = _
  rw [if_pos hlt, append_assoc]
  unfold buffer
  rw [length_append, length_singleton, Nat.add_assoc]

theorem emits_nothing : Emits (pure ()) [] := by
  constructor
  intro S X _
  rw [append_nil]
  rfl

theorem Emits.seq {m m' : StateM Code Unit} {block block' : List Insn} (h : Emits m block)
    (h' : Emits m' block') : Emits (m >>= fun _ => m') (block ++ block') := by
  constructor
  intro S X hroom
  rw [length_append] at hroom
  have hnext := h'.appends S (X ++ block) (by rw [length_append]; omega)
  rw [append_assoc] at hnext
  exact run_seq (h.appends S X (by omega)) hnext

theorem Emits.forM {α : Type} {f : α → StateM Code Unit} {block : α → List Insn} (s : List α)
    (h : ∀ a ∈ s, Emits (f a) (block a)) : Emits (s.forM f) (s.flatMap block) := by
  induction s with
  | nil => exact emits_nothing
  | cons a s ih =>
    exact (h a mem_cons_self).seq (ih fun b hb => h b (mem_cons_of_mem a hb))

/-! ## Blocks -/

def load_insn (argument : UInt32) (high : Bool) : Insn := ⟨0x20, 0, 0, 16 + 8 * argument + (if high then 4 else 0)⟩

def refuse_insn : Insn := ⟨0x06, 0, 0, CONNECTOR_REFUSE⟩
def allow_insn : Insn := ⟨0x06, 0, 0, CONNECTOR_ALLOW⟩

def equal_insns (argument value : UInt32) : List Insn :=
  [load_insn argument true, ⟨0x15, 1, 0, 0⟩, refuse_insn, load_insn argument false, ⟨0x15, 1, 0, value⟩, refuse_insn]

def fd_insns (fd : Int32) : List Insn := equal_insns 0 fd.toUInt32 ++ [allow_insn]

def writing_insns (control status : Int32) : List Insn :=
  [load_insn 0 true, ⟨0x15, 1, 0, 0⟩, refuse_insn, load_insn 0 false,
    ⟨0x15, 2, 0, control.toUInt32⟩, ⟨0x15, 1, 0, status.toUInt32⟩, refuse_insn, allow_insn]

def closing_insns (control : Int32) : List Insn :=
  [load_insn 0 false, ⟨0x15, 0, 1, control.toUInt32⟩, ⟨0x06, 0, 0, CONNECTOR_KILL⟩, allow_insn]

def creating_insns : List Insn :=
  [load_insn 0 true, ⟨0x15, 1, 0, 0⟩, refuse_insn, load_insn 0 false, ⟨0x15, 2, 0, 2⟩,
    ⟨0x15, 1, 0, 10⟩, refuse_insn] ++
    (equal_insns 1 (1 ||| 0x800 ||| 0x80000) ++ (equal_insns 2 6 ++ [allow_insn]))

def checking_insns : List Insn := equal_insns 1 1 ++ (equal_insns 2 4 ++ [allow_insn])

def sending_insns (control : Int32) : List Insn := equal_insns 2 0x4000 ++ fd_insns control

def simple_insns (number : UInt32) : List Insn :=
  if number = UINT32_MAX then [] else [⟨0x15, 0, 1, number⟩, allow_insn]

def start_insns (numbers : Numbers) : List Insn :=
  [⟨0x20, 0, 0, 4⟩, ⟨0x15, 1, 0, numbers.audit⟩, ⟨0x06, 0, 0, CONNECTOR_KILL⟩, ⟨0x20, 0, 0, 0⟩] ++
    [numbers.poll, numbers.ppoll, numbers.clock, numbers.exit, numbers.exit_group].flatMap simple_insns

def range_insns (r : Range) : List Insn :=
  [load_insn 1 true, ⟨0x15, 0, 10, (r.base >>> 32).toUInt32⟩, load_insn 1 false, ⟨0x35, 0, 8, r.base.toUInt32⟩,
    ⟨0x35, 7, 0, (r.base + r.slots.toUInt64 * connector_stride r.length).toUInt32⟩,
    ⟨0x54, 0, 0, (connector_stride r.length - 1).toUInt32⟩, ⟨0x15, 0, 5, 0⟩, load_insn 2 true,
    ⟨0x15, 0, 3, 0⟩, load_insn 2 false, ⟨0x15, 0, 1, r.length⟩, allow_insn]

theorem emits_equal (argument value : UInt32) : Emits (connector_equal argument value) (equal_insns argument value) :=
  (emits_insn ..).seq ((emits_insn ..).seq ((emits_insn ..).seq ((emits_insn ..).seq
    ((emits_insn ..).seq (emits_insn ..)))))

theorem emits_fd (fd : Int32) : Emits (connector_fd fd) (fd_insns fd) := (emits_equal ..).seq (emits_insn ..)

theorem emits_writing (control status : Int32) :
    Emits (connector_writing control status) (writing_insns control status) :=
  (emits_insn ..).seq ((emits_insn ..).seq ((emits_insn ..).seq ((emits_insn ..).seq
    ((emits_insn ..).seq ((emits_insn ..).seq ((emits_insn ..).seq (emits_insn ..)))))))

theorem emits_closing (control : Int32) : Emits (connector_closing control) (closing_insns control) :=
  (emits_insn ..).seq ((emits_insn ..).seq ((emits_insn ..).seq (emits_insn ..)))

theorem emits_creating : Emits connector_creating creating_insns :=
  (emits_insn ..).seq ((emits_insn ..).seq ((emits_insn ..).seq ((emits_insn ..).seq
    ((emits_insn ..).seq ((emits_insn ..).seq ((emits_insn ..).seq
      ((emits_equal ..).seq ((emits_equal ..).seq (emits_insn ..)))))))))

theorem emits_checking : Emits connector_checking checking_insns :=
  (emits_equal ..).seq ((emits_equal ..).seq (emits_insn ..))

theorem emits_sending (control : Int32) : Emits (connector_sending control) (sending_insns control) :=
  (emits_equal ..).seq (emits_fd control)

theorem emits_simple (number : UInt32) : Emits (connector_simple number) (simple_insns number) := by
  unfold connector_simple simple_insns
  split
  · exact emits_nothing
  · exact (emits_insn ..).seq (emits_insn ..)

theorem emits_start (numbers : Numbers) : Emits (connector_start numbers) (start_insns numbers) :=
  (emits_insn ..).seq ((emits_insn ..).seq ((emits_insn ..).seq ((emits_insn ..).seq
    (Emits.forM _ fun number _ => emits_simple number))))

theorem emits_range (r : Range) : Emits (connector_range r) (range_insns r) :=
  (emits_insn ..).seq ((emits_insn ..).seq ((emits_insn ..).seq ((emits_insn ..).seq
    ((emits_insn ..).seq ((emits_insn ..).seq ((emits_insn ..).seq ((emits_insn ..).seq
      ((emits_insn ..).seq ((emits_insn ..).seq ((emits_insn ..).seq (emits_insn ..)))))))))))

/-! ## The dispatch -/

/-- The dispatch, each call's block `k` instructions past its jump. -/
def table_insns (numbers : Numbers) (k : Fin 7 → UInt32) : List Insn :=
  [⟨0x15, 0, 1, numbers.read⟩, ⟨0x05, 0, 0, k 0⟩, ⟨0x15, 0, 1, numbers.write⟩, ⟨0x05, 0, 0, k 1⟩,
    ⟨0x15, 0, 1, numbers.close⟩, ⟨0x05, 0, 0, k 2⟩, ⟨0x15, 0, 1, numbers.socket⟩, ⟨0x05, 0, 0, k 3⟩,
    ⟨0x15, 0, 1, numbers.connect⟩, ⟨0x05, 0, 0, k 4⟩, ⟨0x15, 0, 1, numbers.getsockopt⟩,
    ⟨0x05, 0, 0, k 5⟩, ⟨0x15, 0, 1, numbers.sendmsg⟩, ⟨0x05, 0, 0, k 6⟩, refuse_insn]

theorem run_dispatch (number : UInt32) (S X : List Insn) (hroom : S.length + X.length + 2 ≤ CONNECTOR_INSNS) :
    (connector_dispatch number).run (buffer S X) =
      (S.length + (X.length + 1), buffer S (X ++ [⟨0x15, 0, 1, number⟩, ⟨0x05, 0, 0, 0⟩])) := by
  have hfirst := (emits_insn 0x15 0 1 number).appends S X (by rw [length_singleton]; omega)
  have hsecond := (emits_insn 0x05 0 0 0).appends S (X ++ [⟨0x15, 0, 1, number⟩])
    (by rw [length_append, length_singleton, length_singleton]; omega)
  rw [append_assoc] at hsecond
  apply run_seq hfirst
  apply run_seq rfl
  apply run_seq hsecond
  show (S.length + (X ++ [_]).length, _) = _
  rw [length_append, length_singleton]
  rfl

theorem run_target (numbers : Numbers) (k : Fin 7 → UInt32) (j : Fin 7) (S R : List Insn) :
    (connector_target (S.length + (2 * j.val + 1))).run (buffer S (table_insns numbers k ++ R)) =
      ((), buffer S (table_insns numbers (update k j (UInt32.ofNat (13 - 2 * j.val + R.length))) ++ R)) := by
  have hlen : (table_insns numbers k ++ R).length = 15 + R.length := length_append
  have hdist : S.length + (table_insns numbers k ++ R).length - (S.length + (2 * j.val + 1)) - 1 =
      13 - 2 * j.val + R.length := by
    rw [hlen]
    omega
  have hmodify : ∀ (X : List Insn) (f : Insn → Insn),
      (S ++ X).modify (S.length + (2 * j.val + 1)) f = S ++ X.modify (2 * j.val + 1) f := fun X f =>
    modifyTailIdx_add (modifyHead f) _ S X
  show ((), Code.mk ((S ++ (table_insns numbers k ++ R)).modify _
    (fun i => { i with k := UInt32.ofNat (S.length + (table_insns numbers k ++ R).length -
      (S.length + (2 * j.val + 1)) - 1) })) (S.length + (table_insns numbers k ++ R).length)) = _
  rw [hmodify, hdist]
  have hpatch : ∀ v : UInt32, (table_insns numbers k ++ R).modify (2 * j.val + 1)
      (fun i => { i with k := v }) = table_insns numbers (update k j v) ++ R := by
    intro v
    match j with
    | 0 | 1 | 2 | 3 | 4 | 5 | 6 => rfl
  rw [hpatch, hlen, ← show (table_insns numbers
    (update k j (UInt32.ofNat (13 - 2 * j.val + R.length))) ++ R).length = 15 + R.length from length_append]
  rfl

/-- The blocks the dispatch goes to, but the last. -/
def blocks_insns (control status : Int32) : List Insn :=
  fd_insns control ++ (writing_insns control status ++ (closing_insns control ++
    (creating_insns ++ (checking_insns ++ sending_insns control))))

def calls_insns (numbers : Numbers) (control status : Int32) : List Insn :=
  table_insns numbers ![13, 18, 24, 26, 70, 42, 53] ++ blocks_insns control status

theorem run_calls (numbers : Numbers) (control status : Int32) (S : List Insn)
    (hroom : S.length + 80 ≤ CONNECTOR_INSNS) :
    (connector_calls numbers control status).run (buffer S []) =
      ((), buffer S (calls_insns numbers control status)) := by
  have hdispatch : ∀ (number : UInt32) (X : List Insn), X.length + 2 ≤ 80 →
      (connector_dispatch number).run (buffer S X) =
        (S.length + (X.length + 1), buffer S (X ++ [⟨0x15, 0, 1, number⟩, ⟨0x05, 0, 0, 0⟩])) :=
    fun number X hX => run_dispatch number S X (by omega)
  have hemits : ∀ {m : StateM Code Unit} {block : List Insn} (k : Fin 7 → UInt32) (R : List Insn),
      Emits m block → 15 + R.length + block.length ≤ 80 →
      m.run (buffer S (table_insns numbers k ++ R)) = ((), buffer S (table_insns numbers k ++ (R ++ block))) := by
    intro m block k R h hR
    rw [← append_assoc]
    apply h.appends S (table_insns numbers k ++ R)
    have hlen : (table_insns numbers k ++ R).length = 15 + R.length := length_append
    omega
  have htarget : ∀ (k : Fin 7 → UInt32) (j : Fin 7) (R : List Insn),
      (connector_target (S.length + (2 * j.val + 1))).run (buffer S (table_insns numbers k ++ R)) =
        ((), buffer S (table_insns numbers (update k j (UInt32.ofNat (13 - 2 * j.val + R.length))) ++ R)) :=
    fun k j R => run_target numbers k j S R
  apply run_seq (hdispatch numbers.read [] (by decide))
  apply run_seq (hdispatch numbers.write _ (le_of_ble_eq_true rfl))
  apply run_seq (hdispatch numbers.close _ (le_of_ble_eq_true rfl))
  apply run_seq (hdispatch numbers.socket _ (le_of_ble_eq_true rfl))
  apply run_seq (hdispatch numbers.connect _ (le_of_ble_eq_true rfl))
  apply run_seq (hdispatch numbers.getsockopt _ (le_of_ble_eq_true rfl))
  apply run_seq (hdispatch numbers.sendmsg _ (le_of_ble_eq_true rfl))
  have hreturn : (connector_return CONNECTOR_REFUSE).run (buffer S ((table_insns numbers fun _ => 0).take 14)) =
        ((), buffer S (table_insns numbers (fun _ => 0) ++ [])) :=
    (emits_insn 0x06 0 0 CONNECTOR_REFUSE).appends S ((table_insns numbers fun _ => 0).take 14)
      (by show S.length + 14 + 1 ≤ CONNECTOR_INSNS; omega)
  apply run_seq hreturn
  apply run_seq (htarget _ 0 _)
  apply run_seq (hemits _ _ (emits_fd control) (le_of_ble_eq_true rfl))
  apply run_seq (htarget _ 1 _)
  apply run_seq (hemits _ _ (emits_writing control status) (le_of_ble_eq_true rfl))
  apply run_seq (htarget _ 2 _)
  apply run_seq (hemits _ _ (emits_closing control) (le_of_ble_eq_true rfl))
  apply run_seq (htarget _ 3 _)
  apply run_seq (hemits _ _ emits_creating (le_of_ble_eq_true rfl))
  apply run_seq (htarget _ 5 _)
  apply run_seq (hemits _ _ emits_checking (le_of_ble_eq_true rfl))
  apply run_seq (htarget _ 6 _)
  apply run_seq (hemits _ _ (emits_sending control) (le_of_ble_eq_true rfl))
  have hlast := htarget (update (update (update (update (update
      (update (fun _ => 0) 0 13) 1 18) 2 24) 3 26) 5 42) 6 53) 4
    ([] ++ fd_insns control ++ writing_insns control status ++ closing_insns control ++
      creating_insns ++ checking_insns ++ sending_insns control)
  refine hlast.trans ?_
  have hk : (update (update (update (update (update (update (update (fun _ => 0) 0 13) 1 18) 2 24) 3 26) 5 42) 6 53) 4
        (UInt32.ofNat 70) : Fin 7 → UInt32) = ![13, 18, 24, 26, 70, 42, 53] := by
    funext j
    match j with
    | 0 | 1 | 2 | 3 | 4 | 5 | 6 => rfl
  have hblocks : [] ++ fd_insns control ++ writing_insns control status ++ closing_insns control ++
      creating_insns ++ checking_insns ++ sending_insns control = blocks_insns control status := by
    simp only [blocks_insns, append_assoc, nil_append]
  rw [hblocks]
  show ((), buffer S (table_insns numbers (update _ 4 (UInt32.ofNat 70)) ++ _)) = _
  rw [hk]
  rfl

/-! ## The whole program -/

theorem buffer_nil (X : List Insn) : buffer [] X = buffer X [] := by
  simp [buffer]

theorem simple_length (number : UInt32) : (simple_insns number).length ≤ 2 := by
  unfold simple_insns
  split
  · exact Nat.zero_le 2
  · exact Nat.le_refl 2

theorem start_length (numbers : Numbers) : (start_insns numbers).length ≤ 14 := by
  have h₁ := simple_length numbers.poll
  have h₂ := simple_length numbers.ppoll
  have h₃ := simple_length numbers.clock
  have h₄ := simple_length numbers.exit
  have h₅ := simple_length numbers.exit_group
  simp only [start_insns, flatMap_cons, flatMap_nil, length_append, length_cons, length_nil]
  omega

theorem ranges_length (ranges : List Range) : (ranges.flatMap range_insns).length = 12 * ranges.length := by
  induction ranges with
  | nil => rfl
  | cons r ranges ih =>
    rw [flatMap_cons, length_append, ih, length_cons]
    show 12 + _ = _
    omega

/-- What the program is: what comes before the dispatch, the dispatch and its blocks, the ranges, and
a refusal. -/
def layout (numbers : Numbers) (ranges : List Range) (control status : Int32) : List Insn :=
  start_insns numbers ++ (calls_insns numbers control status ++ (ranges.flatMap range_insns ++ [refuse_insn]))

theorem layout_length (numbers : Numbers) {ranges : List Range} (h : ranges.length ≤ 130)
    (control status : Int32) : (layout numbers ranges control status).length ≤ CONNECTOR_INSNS := by
  have hstart := start_length numbers
  have hcalls : (calls_insns numbers control status).length = 80 := rfl
  simp only [layout, length_append, ranges_length, hcalls, length_singleton]
  show _ ≤ 4096
  omega

theorem program_eq (numbers : Numbers) {ranges : List Range} (h : ranges.length ≤ 130) (control status : Int32) :
    program numbers ranges control status = layout numbers ranges control status ∧
      ((connector_program numbers ranges control status).run ⟨[], 0⟩).1 =
        (layout numbers ranges control status).length := by
  have hstart := start_length numbers
  have hfit := layout_length numbers h control status
  have hcalls : (calls_insns numbers control status).length = 80 := rfl
  have hranges := ranges_length ranges
  have hsize : (CONNECTOR_INSNS : ℕ) = 4096 := rfl
  have hrun : (connector_program numbers ranges control status).run ⟨[], 0⟩ =
      ((layout numbers ranges control status).length, buffer [] (layout numbers ranges control status)) := by
    have hset : (set (⟨[], 0⟩ : Code) : StateM Code Unit).run ⟨[], 0⟩ = ((), buffer [] []) := rfl
    apply run_seq hset
    apply run_seq ((emits_start numbers).appends [] [] (by simp; omega))
    rw [nil_append, buffer_nil]
    apply run_seq (run_calls numbers control status (start_insns numbers) (by omega))
    apply run_seq ((Emits.forM ranges fun r _ => emits_range r).appends _ _ (by rw [hcalls, hranges]; omega))
    apply run_seq ((emits_insn 0x06 0 0 CONNECTOR_REFUSE).appends _ _
      (by rw [length_append, hcalls, hranges, length_singleton]; omega))
    have hget : (get : StateM Code Code).run (buffer [] (layout numbers ranges control status)) =
        (buffer [] (layout numbers ranges control status), buffer [] (layout numbers ranges control status)) := rfl
    refine run_seq (Eq.trans ?_ hget) ?_
    · rw [buffer_nil]
      simp only [buffer, layout, append_assoc, append_nil, length_append, length_nil, Nat.add_zero]
      rfl
    · show (if 0 + (layout numbers ranges control status).length ≤ CONNECTOR_INSNS then
        0 + (layout numbers ranges control status).length else 0, _) = _
      rw [Nat.zero_add, if_pos hfit]
  refine ⟨?_, by rw [hrun]⟩
  unfold program
  rw [hrun]
  exact take_length

/-! ## Halves of a word -/

theorem low_toNat (v : UInt64) : (low v).toNat = v.toNat % 2 ^ 32 := by
  simp [low]

theorem high_toNat (v : UInt64) : (high v).toNat = v.toNat / 2 ^ 32 := by
  have hlt := v.toNat_lt
  unfold high
  rw [UInt64.toNat_toUInt32, UInt64.toNat_shiftRight, Nat.shiftRight_eq_div_pow]
  show v.toNat / 2 ^ (32 % 64) % 2 ^ 32 = _
  rw [Nat.mod_eq_of_lt]
  exact Nat.div_lt_of_lt_mul (by omega)

theorem eq_iff_halves (x y : UInt64) : x = y ↔ high x = high y ∧ low x = low y := by
  rw [← UInt64.toNat_inj, ← UInt32.toNat_inj, ← UInt32.toNat_inj, high_toNat, high_toNat, low_toNat, low_toNat]
  omega

theorem eq_word_iff (x : UInt64) (v : UInt32) : x = v.toUInt64 ↔ high x = 0 ∧ low x = v := by
  have hhigh : high v.toUInt64 = 0 := by
    apply UInt32.toNat_inj.mp
    have hlt := v.toNat_lt
    rw [high_toNat, UInt32.toNat_toUInt64]
    exact div_eq_of_lt hlt
  have hlow : low v.toUInt64 = v := by
    apply UInt32.toNat_inj.mp
    rw [low_toNat, UInt32.toNat_toUInt64]
    exact Nat.mod_eq_of_lt v.toNat_lt
  rw [eq_iff_halves, hhigh, hlow]

/-! ## What the blocks mean -/

section

variable (c : Call)

/-- Where the program finds the two halves of an argument. -/
structure Loads (argument : UInt32) (x : UInt64) : Prop where
  high_word : c.word (16 + 8 * argument + 4) = some (high x)
  low_word : c.word (16 + 8 * argument + 0) = some (low x)

theorem loads_0 : Loads c 0 (c.args 0) := ⟨rfl, rfl⟩
theorem loads_1 : Loads c 1 (c.args 1) := ⟨rfl, rfl⟩
theorem loads_2 : Loads c 2 (c.args 2) := ⟨rfl, rfl⟩

variable {c} {rest : List Insn} (a : UInt32)

theorem run_load_high {argument : UInt32} {x : UInt64} (h : Loads c argument x) :
    run c.word (load_insn argument true :: rest) 0 a = run c.word rest 0 (high x) :=
  run_load h.high_word rest a

theorem run_load_low {argument : UInt32} {x : UInt64} (h : Loads c argument x) :
    run c.word (load_insn argument false :: rest) 0 a = run c.word rest 0 (low x) :=
  run_load h.low_word rest a

theorem run_refuse : run c.word (refuse_insn :: rest) 0 a = some CONNECTOR_REFUSE := rfl

theorem run_allow : run c.word (allow_insn :: rest) 0 a = some CONNECTOR_ALLOW := rfl

theorem run_over (i : Insn) : run c.word (i :: rest) 1 a = run c.word rest 0 a := rfl

theorem run_equal_insns {argument value : UInt32} {x : UInt64} (h : Loads c argument x) :
    run c.word (equal_insns argument value ++ rest) 0 a =
      if x = value.toUInt64 then run c.word rest 0 value else some CONNECTOR_REFUSE := by
  show run c.word (load_insn argument true :: ⟨0x15, 1, 0, 0⟩ :: refuse_insn ::
    load_insn argument false :: ⟨0x15, 1, 0, value⟩ :: refuse_insn :: rest) 0 a = _
  rw [run_load_high a h, run_equal]
  by_cases hhigh : high x = 0
  · rw [if_pos hhigh]
    show run c.word (_ :: load_insn argument false :: _) 1 _ = _
    rw [run_over, run_load_low _ h, run_equal]
    by_cases hlow : low x = value
    · rw [if_pos hlow, if_pos ((eq_word_iff x value).mpr ⟨hhigh, hlow⟩), hlow]
      rfl
    · rw [if_neg hlow, if_neg (fun heq => hlow ((eq_word_iff x value).mp heq).2)]
      rfl
  · rw [if_neg hhigh, if_neg (fun heq => hhigh ((eq_word_iff x value).mp heq).1)]
    rfl

theorem run_fd_insns (fd : Int32) : run c.word (fd_insns fd ++ rest) 0 a =
      some (if c.args 0 = fd.toUInt32.toUInt64 then CONNECTOR_ALLOW else CONNECTOR_REFUSE) := by
  unfold fd_insns
  rw [append_assoc, run_equal_insns a (loads_0 c)]
  split
  · rfl
  · rfl

theorem run_either {x : UInt64} (h : Loads c 0 x) (v w : UInt32) :
    run c.word (load_insn 0 true :: ⟨0x15, 1, 0, 0⟩ :: refuse_insn :: load_insn 0 false ::
        ⟨0x15, 2, 0, v⟩ :: ⟨0x15, 1, 0, w⟩ :: refuse_insn :: rest) 0 a =
      if x = v.toUInt64 ∨ x = w.toUInt64 then run c.word rest 0 (low x)
      else some CONNECTOR_REFUSE := by
  rw [run_load_high a h, run_equal]
  simp only [eq_word_iff]
  by_cases hhigh : high x = 0
  · simp only [hhigh, true_and, if_true]
    show run c.word (_ :: load_insn 0 false :: _) 1 _ = _
    rw [run_over, run_load_low _ h, run_equal]
    by_cases hv : low x = v
    · rw [if_pos hv, if_pos (.inl hv)]
      rfl
    rw [if_neg hv]
    show run c.word (⟨0x15, 1, 0, w⟩ :: refuse_insn :: rest) 0 (low x) = _
    rw [run_equal]
    by_cases hw : low x = w
    · rw [if_pos hw, if_pos (.inr hw)]
      rfl
    · rw [if_neg hw, if_neg (by simp [hv, hw])]
      rfl
  · simp only [hhigh, false_and, or_self, if_false]
    rfl

theorem run_writing (control status : Int32) : run c.word (writing_insns control status ++ rest) 0 a =
      some (if c.args 0 = control.toUInt32.toUInt64 ∨ c.args 0 = status.toUInt32.toUInt64 then
        CONNECTOR_ALLOW else CONNECTOR_REFUSE) := by
  refine (@run_either c (allow_insn :: rest) a _ (loads_0 c) control.toUInt32 status.toUInt32).trans ?_
  split
  · rfl
  · rfl

theorem run_closing (control : Int32) : run c.word (closing_insns control ++ rest) 0 a =
      some (if low (c.args 0) = control.toUInt32 then CONNECTOR_KILL else CONNECTOR_ALLOW) := by
  show run c.word (load_insn 0 false :: ⟨0x15, 0, 1, control.toUInt32⟩ :: _ :: allow_insn :: rest) 0 a = _
  rw [run_load_low a (loads_0 c), run_equal]
  split
  · rfl
  · rfl

theorem run_creating : run c.word (creating_insns ++ rest) 0 a =
      some (if (c.args 0 = 2 ∨ c.args 0 = 10) ∧ c.args 1 = 0x80801 ∧ c.args 2 = 6 then
        CONNECTOR_ALLOW else CONNECTOR_REFUSE) := by
  refine (@run_either c (equal_insns 1 (1 ||| 0x800 ||| 0x80000) ++
    (equal_insns 2 6 ++ allow_insn :: rest)) a _ (loads_0 c) 2 10).trans ?_
  have htwo : (2 : UInt32).toUInt64 = 2 := rfl
  have hten : (10 : UInt32).toUInt64 = 10 := rfl
  have htype : (1 ||| 0x800 ||| 0x80000 : UInt32).toUInt64 = 0x80801 := rfl
  have htcp : (6 : UInt32).toUInt64 = 6 := rfl
  rw [htwo, hten, run_equal_insns _ (loads_1 c), htype, run_equal_insns _ (loads_2 c), htcp, run_allow]
  by_cases h₀ : c.args 0 = 2 ∨ c.args 0 = 10
  · by_cases h₁ : c.args 1 = 0x80801
    · by_cases h₂ : c.args 2 = 6
      · rw [if_pos h₀, if_pos h₁, if_pos h₂, if_pos ⟨h₀, h₁, h₂⟩]
      · rw [if_pos h₀, if_pos h₁, if_neg h₂, if_neg (fun h => h₂ h.2.2)]
    · rw [if_pos h₀, if_neg h₁, if_neg (fun h => h₁ h.2.1)]
  · rw [if_neg h₀, if_neg (fun h => h₀ h.1)]

theorem run_checking : run c.word (checking_insns ++ rest) 0 a =
      some (if c.args 1 = 1 ∧ c.args 2 = 4 then CONNECTOR_ALLOW else CONNECTOR_REFUSE) := by
  have hone : (1 : UInt32).toUInt64 = 1 := rfl
  have hfour : (4 : UInt32).toUInt64 = 4 := rfl
  unfold checking_insns
  rw [append_assoc, append_assoc, run_equal_insns a (loads_1 c), run_equal_insns _ (loads_2 c), hone, hfour]
  by_cases h₁ : c.args 1 = 1
  · by_cases h₂ : c.args 2 = 4
    · rw [if_pos h₁, if_pos h₂, if_pos ⟨h₁, h₂⟩]
      rfl
    · rw [if_pos h₁, if_neg h₂, if_neg (fun h => h₂ h.2)]
  · rw [if_neg h₁, if_neg (fun h => h₁ h.1)]

theorem run_sending (control : Int32) : run c.word (sending_insns control ++ rest) 0 a =
      some (if c.args 2 = 0x4000 ∧ c.args 0 = control.toUInt32.toUInt64 then CONNECTOR_ALLOW
        else CONNECTOR_REFUSE) := by
  have hflags : (0x4000 : UInt32).toUInt64 = 0x4000 := rfl
  unfold sending_insns
  rw [append_assoc, run_equal_insns a (loads_2 c), run_fd_insns, hflags]
  by_cases h₂ : c.args 2 = 0x4000
  · simp only [h₂, if_true, true_and]
  · simp only [h₂, if_false, false_and]

end

/-! ## Ranges -/

/-- A range as the connector makes it: its base a multiple of the stride, and its end in the same
four gigabytes as its base. -/
structure Range.Placed (r : Range) : Prop where
  aligned : r.base.toNat % (connector_stride r.length).toNat = 0
  same_half : (r.base.toNat + r.slots.toNat * (connector_stride r.length).toNat) / 2 ^ 32 = r.base.toNat / 2 ^ 32

def Range.Slot (r : Range) (p : UInt64) : Prop :=
  ∃ j, j < r.slots.toNat ∧ p.toNat = r.base.toNat + j * (connector_stride r.length).toNat

theorem stride_cases (length : UInt32) : connector_stride length = 32 ∨ connector_stride length = 16 := by
  unfold connector_stride
  split
  · exact .inl rfl
  · exact .inr rfl

theorem slot_iff {r : Range} (h : r.Placed) (p : UInt64) : r.Slot p ↔
      high p = (r.base >>> 32).toUInt32 ∧ r.base.toUInt32 ≤ low p ∧
        ¬(r.base + r.slots.toUInt64 * connector_stride r.length).toUInt32 ≤ low p ∧
        low p &&& (connector_stride r.length - 1).toUInt32 = 0 := by
  have hbase := r.base.toNat_lt
  have haligned := h.aligned
  have hhalf := h.same_half
  have hmask : ∀ s : UInt64, s = 32 ∨ s = 16 → (low p &&& (s - 1).toUInt32 = 0 ↔ p.toNat % s.toNat = 0) := by
    intro s hs
    rw [← UInt32.toNat_inj, UInt32.toNat_and, low_toNat]
    rcases hs with rfl | rfl
    · show p.toNat % 2 ^ 32 &&& 2 ^ 5 - 1 = 0 ↔ p.toNat % 32 = 0
      rw [and_two_pow_sub_one_eq_mod]
      omega
    · show p.toNat % 2 ^ 32 &&& 2 ^ 4 - 1 = 0 ↔ p.toNat % 16 = 0
      rw [and_two_pow_sub_one_eq_mod]
      omega
  have hstop : (r.base + r.slots.toUInt64 * connector_stride r.length).toNat =
      r.base.toNat + r.slots.toNat * (connector_stride r.length).toNat := by
    rw [UInt64.toNat_add, UInt64.toNat_mul, UInt32.toNat_toUInt64]
    rcases stride_cases r.length with hs | hs
    · rw [hs] at hhalf ⊢
      have h32 : (32 : UInt64).toNat = 32 := rfl
      rw [h32] at hhalf ⊢
      omega
    · rw [hs] at hhalf ⊢
      have h16 : (16 : UInt64).toNat = 16 := rfl
      rw [h16] at hhalf ⊢
      omega
  rw [hmask _ (stride_cases r.length), UInt32.le_iff_toNat_le, UInt32.le_iff_toNat_le, ← UInt32.toNat_inj]
  show r.Slot p ↔ (high p).toNat = (high r.base).toNat ∧ (low r.base).toNat ≤ (low p).toNat ∧
    ¬(low (r.base + r.slots.toUInt64 * connector_stride r.length)).toNat ≤ (low p).toNat ∧ _
  rw [high_toNat, high_toNat, low_toNat, low_toNat, low_toNat, hstop]
  unfold Range.Slot
  rcases stride_cases r.length with hs | hs
  · have h32 : (connector_stride r.length).toNat = 32 := by
      rw [hs]
      rfl
    rw [h32] at haligned hhalf ⊢
    constructor
    · rintro ⟨j, hj, hpj⟩
      omega
    · rintro ⟨h₁, h₂, h₃, h₄⟩
      exact ⟨(p.toNat - r.base.toNat) / 32, by omega, by omega⟩
  · have h16 : (connector_stride r.length).toNat = 16 := by
      rw [hs]
      rfl
    rw [h16] at haligned hhalf ⊢
    constructor
    · rintro ⟨j, hj, hpj⟩
      omega
    · rintro ⟨h₁, h₂, h₃, h₄⟩
      exact ⟨(p.toNat - r.base.toNat) / 16, by omega, by omega⟩

def Range.Takes (r : Range) (c : Call) : Prop := r.Slot (c.args 1) ∧ c.args 2 = r.length.toUInt64

section

variable {c : Call} {rest : List Insn} (a : UInt32)

theorem run_past (skipped : List Insn) {n : ℕ} (h : skipped.length = n) :
    run c.word (skipped ++ rest) n a = run c.word rest 0 a := run_skip_of h a

/-- The block of a range allows the connects it takes, and goes on to the next one with the others,
whatever the accumulator holds. -/
theorem run_range {r : Range} (h : r.Placed) :
    (r.Takes c → run c.word (range_insns r ++ rest) 0 a = some CONNECTOR_ALLOW) ∧
      (¬r.Takes c → ∃ a', run c.word (range_insns r ++ rest) 0 a = run c.word rest 0 a') := by
  have hslot := slot_iff h (c.args 1)
  have hlength := eq_word_iff (c.args 2) r.length
  have hload : run c.word (range_insns r ++ rest) 0 a =
      run c.word ((range_insns r).drop 1 ++ rest) 0 (high (c.args 1)) :=
    run_load_high a (loads_1 c)
  -- each test is met in the order of the instructions; the first that fails decides
  by_cases hhigh : high (c.args 1) = (r.base >>> 32).toUInt32
  · have h₁ : run c.word (range_insns r ++ rest) 0 a =
        run c.word ((range_insns r).drop 3 ++ rest) 0 (low (c.args 1)) := by
      rw [hload]
      refine (run_equal ..).trans ?_
      rw [if_pos hhigh]
      exact run_load_low _ (loads_1 c)
    by_cases hbase : r.base.toUInt32 ≤ low (c.args 1)
    · by_cases hstop : (r.base + r.slots.toUInt64 * connector_stride r.length).toUInt32 ≤ low (c.args 1)
      · refine ⟨fun ht => absurd hstop (hslot.mp ht.1).2.2.1, fun _ => ⟨low (c.args 1), ?_⟩⟩
        rw [h₁]
        refine (run_at_least ..).trans ?_
        rw [if_pos hbase]
        refine (run_at_least ..).trans ?_
        rw [if_pos hstop]
        exact run_past _ ((range_insns r).drop 5) rfl
      · have h₂ : run c.word (range_insns r ++ rest) 0 a = run c.word ((range_insns r).drop 6 ++ rest) 0
              (low (c.args 1) &&& (connector_stride r.length - 1).toUInt32) := by
          rw [h₁]
          refine (run_at_least ..).trans ?_
          rw [if_pos hbase]
          refine (run_at_least ..).trans ?_
          rw [if_neg hstop]
          rfl
        by_cases hmask : low (c.args 1) &&& (connector_stride r.length - 1).toUInt32 = 0
        · have hin : r.Slot (c.args 1) := hslot.mpr ⟨hhigh, hbase, hstop, hmask⟩
          have h₃ : run c.word (range_insns r ++ rest) 0 a =
              run c.word ((range_insns r).drop 8 ++ rest) 0 (high (c.args 2)) := by
            rw [h₂]
            refine (run_equal ..).trans ?_
            rw [if_pos hmask]
            exact run_load_high _ (loads_2 c)
          by_cases hzero : high (c.args 2) = 0
          · have h₄ : run c.word (range_insns r ++ rest) 0 a =
                run c.word ((range_insns r).drop 10 ++ rest) 0 (low (c.args 2)) := by
              rw [h₃]
              refine (run_equal ..).trans ?_
              rw [if_pos hzero]
              exact run_load_low _ (loads_2 c)
            by_cases hlow : low (c.args 2) = r.length
            · refine ⟨fun _ => ?_, fun ht => absurd ⟨hin, hlength.mpr ⟨hzero, hlow⟩⟩ ht⟩
              rw [h₄]
              refine (run_equal ..).trans ?_
              rw [if_pos hlow]
              rfl
            · refine ⟨fun ht => absurd (hlength.mp ht.2).2 hlow, fun _ => ⟨low (c.args 2), ?_⟩⟩
              rw [h₄]
              refine (run_equal ..).trans ?_
              rw [if_neg hlow]
              exact run_past _ ((range_insns r).drop 11) rfl
          · refine ⟨fun ht => absurd (hlength.mp ht.2).1 hzero, fun _ => ⟨high (c.args 2), ?_⟩⟩
            rw [h₃]
            refine (run_equal ..).trans ?_
            rw [if_neg hzero]
            exact run_past _ ((range_insns r).drop 9) rfl
        · refine ⟨fun ht => absurd (hslot.mp ht.1).2.2.2 hmask, fun _ =>
            ⟨low (c.args 1) &&& (connector_stride r.length - 1).toUInt32, ?_⟩⟩
          rw [h₂]
          refine (run_equal ..).trans ?_
          rw [if_neg hmask]
          exact run_past _ ((range_insns r).drop 7) rfl
    · refine ⟨fun ht => absurd (hslot.mp ht.1).2.1 hbase, fun _ => ⟨low (c.args 1), ?_⟩⟩
      rw [h₁]
      refine (run_at_least ..).trans ?_
      rw [if_neg hbase]
      exact run_past _ ((range_insns r).drop 4) rfl
  · refine ⟨fun ht => absurd (hslot.mp ht.1).1 hhigh, fun _ => ⟨high (c.args 1), ?_⟩⟩
    rw [hload]
    refine (run_equal ..).trans ?_
    rw [if_neg hhigh]
    exact run_past _ ((range_insns r).drop 2) rfl

open scoped Classical in
/-- The ranges one after another, by induction on them: the accumulator they are met with is the one
the range before left. -/
theorem run_ranges {ranges : List Range} (h : ∀ r ∈ ranges, r.Placed) :
    run c.word (ranges.flatMap range_insns ++ [refuse_insn]) 0 a =
      some (if ∃ r ∈ ranges, r.Takes c then CONNECTOR_ALLOW else CONNECTOR_REFUSE) := by
  induction ranges generalizing a with
  | nil => simp [run_refuse]
  | cons r ranges ih =>
    have hrest := fun b => ih b fun s hs => h s (mem_cons_of_mem r hs)
    have hr := @run_range c (ranges.flatMap range_insns ++ [refuse_insn]) a r (h r mem_cons_self)
    rw [flatMap_cons, append_assoc]
    by_cases ht : r.Takes c
    · rw [hr.1 ht, if_pos ⟨r, mem_cons_self, ht⟩]
    obtain ⟨a', ha'⟩ := hr.2 ht
    rw [ha', hrest a']
    congr 1
    apply if_congr _ rfl rfl
    constructor
    · rintro ⟨s, hs, hts⟩
      exact ⟨s, mem_cons_of_mem r hs, hts⟩
    · rintro ⟨s, hs, hts⟩
      rcases mem_cons.mp hs with rfl | hs
      · exact absurd hts ht
      · exact ⟨s, hs, hts⟩

end

/-! ## The calls -/

section

variable {c : Call} {rest : List Insn}

theorem run_simple (number : UInt32) : run c.word (simple_insns number ++ rest) 0 c.nr =
      if c.nr = number ∧ number ≠ UINT32_MAX then some CONNECTOR_ALLOW
      else run c.word rest 0 c.nr := by
  unfold simple_insns
  by_cases hmax : number = UINT32_MAX
  · rw [if_pos hmax, if_neg (fun h => h.2 hmax)]
    rfl
  rw [if_neg hmax]
  refine (run_equal ..).trans ?_
  by_cases hnumber : c.nr = number
  · rw [if_pos hnumber, if_pos ⟨hnumber, hmax⟩]
    rfl
  · rw [if_neg hnumber, if_neg (fun h => hnumber h.1)]
    rfl

open scoped Classical in
theorem run_simples (numbers : List UInt32) : run c.word (numbers.flatMap simple_insns ++ rest) 0 c.nr =
      if c.nr ∈ numbers ∧ c.nr ≠ UINT32_MAX then some CONNECTOR_ALLOW
      else run c.word rest 0 c.nr := by
  induction numbers with
  | nil => rw [if_neg (fun h => not_mem_nil h.1), flatMap_nil, nil_append]
  | cons number numbers ih =>
    rw [flatMap_cons, append_assoc, run_simple]
    by_cases hfirst : c.nr = number ∧ number ≠ UINT32_MAX
    · rw [if_pos hfirst, if_pos ⟨mem_cons.mpr (.inl hfirst.1), hfirst.1 ▸ hfirst.2⟩]
    rw [if_neg hfirst, ih]
    apply if_congr _ rfl rfl
    constructor
    · rintro ⟨hmem, hmax⟩
      exact ⟨mem_cons_of_mem number hmem, hmax⟩
    · rintro ⟨hmem, hmax⟩
      rcases mem_cons.mp hmem with hnumber | hmem
      · exact absurd ⟨hnumber, hnumber ▸ hmax⟩ hfirst
      · exact ⟨hmem, hmax⟩

/-- The calls allowed whatever their arguments. -/
def Simple (numbers : Numbers) (nr : UInt32) : Prop :=
  nr ∈ [numbers.poll, numbers.ppoll, numbers.clock, numbers.exit, numbers.exit_group] ∧ nr ≠ UINT32_MAX

open scoped Classical in
theorem run_start (numbers : Numbers) (a : UInt32) : run c.word (start_insns numbers ++ rest) 0 a =
      if c.arch = numbers.audit then
        if Simple numbers c.nr then some CONNECTOR_ALLOW else run c.word rest 0 c.nr
      else some CONNECTOR_KILL := by
  unfold start_insns
  rw [append_assoc]
  show run c.word (⟨0x20, 0, 0, 4⟩ :: ⟨0x15, 1, 0, numbers.audit⟩ :: ⟨0x06, 0, 0, CONNECTOR_KILL⟩ ::
    ⟨0x20, 0, 0, 0⟩ :: (_ ++ rest)) 0 a = _
  rw [run_load (show c.word 4 = some c.arch from rfl), run_equal]
  by_cases harch : c.arch = numbers.audit
  · rw [if_pos harch, if_pos harch]
    show run c.word (_ :: ⟨0x20, 0, 0, 0⟩ :: _) 1 c.arch = _
    rw [run_over, run_load (show c.word 0 = some c.nr from rfl), run_simples]
    exact if_congr Iff.rfl rfl rfl
  · rw [if_neg harch, if_neg harch]
    rfl

theorem run_case (number k a : UInt32) : run c.word (⟨0x15, 0, 1, number⟩ :: ⟨0x05, 0, 0, k⟩ :: rest) 0 a =
      if a = number then run c.word rest k.toNat a else run c.word rest 0 a := by
  rw [run_equal]
  split
  · rfl
  · rfl

theorem run_table (numbers : Numbers) (k : Fin 7 → UInt32) (a : UInt32) :
    run c.word (table_insns numbers k ++ rest) 0 a =
      if a = numbers.read then run c.word ((table_insns numbers k).drop 2 ++ rest) (k 0).toNat a
      else if a = numbers.write then run c.word ((table_insns numbers k).drop 4 ++ rest) (k 1).toNat a
      else if a = numbers.close then run c.word ((table_insns numbers k).drop 6 ++ rest) (k 2).toNat a
      else if a = numbers.socket then run c.word ((table_insns numbers k).drop 8 ++ rest) (k 3).toNat a
      else if a = numbers.connect then
        run c.word ((table_insns numbers k).drop 10 ++ rest) (k 4).toNat a
      else if a = numbers.getsockopt then
        run c.word ((table_insns numbers k).drop 12 ++ rest) (k 5).toNat a
      else if a = numbers.sendmsg then
        run c.word ((table_insns numbers k).drop 14 ++ rest) (k 6).toNat a
      else some CONNECTOR_REFUSE := by
  refine (run_case ..).trans (if_congr Iff.rfl rfl ?_)
  refine (run_case ..).trans (if_congr Iff.rfl rfl ?_)
  refine (run_case ..).trans (if_congr Iff.rfl rfl ?_)
  refine (run_case ..).trans (if_congr Iff.rfl rfl ?_)
  refine (run_case ..).trans (if_congr Iff.rfl rfl ?_)
  refine (run_case ..).trans (if_congr Iff.rfl rfl ?_)
  refine (run_case ..).trans (if_congr Iff.rfl rfl ?_)
  rfl

/-- What is left of the dispatch after `n` instructions. -/
def lines_insns (numbers : Numbers) (n : ℕ) : List Insn := (table_insns numbers ![13, 18, 24, 26, 70, 42, 53]).drop n

/-- Each call goes to its own block: the jump of its line is as long as the lines and the blocks
between them. -/
theorem run_calls_insns (numbers : Numbers) (control status : Int32) (a : UInt32) :
    run c.word (calls_insns numbers control status ++ rest) 0 a =
      if a = numbers.read then
        some (if c.args 0 = control.toUInt32.toUInt64 then CONNECTOR_ALLOW else CONNECTOR_REFUSE)
      else if a = numbers.write then
        some (if c.args 0 = control.toUInt32.toUInt64 ∨ c.args 0 = status.toUInt32.toUInt64 then
          CONNECTOR_ALLOW else CONNECTOR_REFUSE)
      else if a = numbers.close then
        some (if low (c.args 0) = control.toUInt32 then CONNECTOR_KILL else CONNECTOR_ALLOW)
      else if a = numbers.socket then
        some (if (c.args 0 = 2 ∨ c.args 0 = 10) ∧ c.args 1 = 0x80801 ∧ c.args 2 = 6 then
          CONNECTOR_ALLOW else CONNECTOR_REFUSE)
      else if a = numbers.connect then run c.word rest 0 a
      else if a = numbers.getsockopt then
        some (if c.args 1 = 1 ∧ c.args 2 = 4 then CONNECTOR_ALLOW else CONNECTOR_REFUSE)
      else if a = numbers.sendmsg then
        some (if c.args 2 = 0x4000 ∧ c.args 0 = control.toUInt32.toUInt64 then CONNECTOR_ALLOW
          else CONNECTOR_REFUSE)
      else some CONNECTOR_REFUSE := by
  have hskip : ∀ (n : ℕ) (skipped block : List Insn) (r : Option UInt32),
      skipped.length = n → run c.word block 0 a = r →
        run c.word (skipped ++ block) n a = r := fun n skipped block r h hr =>
    (run_skip_of h a).trans hr
  unfold calls_insns
  rw [append_assoc, run_table]
  refine if_congr Iff.rfl ?_ (if_congr Iff.rfl ?_ (if_congr Iff.rfl ?_ (if_congr Iff.rfl ?_
    (if_congr Iff.rfl ?_ (if_congr Iff.rfl ?_ (if_congr Iff.rfl ?_ rfl))))))
  · exact hskip 13 (lines_insns numbers 2) _ _ rfl (run_fd_insns a control)
  · exact hskip 18 (lines_insns numbers 4 ++ fd_insns control) _ _ rfl (run_writing a control status)
  · exact hskip 24 (lines_insns numbers 6 ++ fd_insns control ++ writing_insns control status) _ _ rfl
      (run_closing a control)
  · exact hskip 26 (lines_insns numbers 8 ++ fd_insns control ++ writing_insns control status ++
      closing_insns control) _ _ rfl (run_creating a)
  · exact hskip 70 (lines_insns numbers 10 ++ blocks_insns control status) rest _ rfl rfl
  · exact hskip 42 (lines_insns numbers 12 ++ fd_insns control ++ writing_insns control status ++
      closing_insns control ++ creating_insns) _ _ rfl (run_checking a)
  · exact hskip 53 (lines_insns numbers 14 ++ fd_insns control ++ writing_insns control status ++
      closing_insns control ++ creating_insns ++ checking_insns) _ _ rfl (run_sending a control)

end

/-! ## The policy -/

/-- No two calls of an architecture have one number. -/
def Numbers.Distinct (n : Numbers) : Prop :=
  [n.read, n.write, n.close, n.socket, n.connect, n.getsockopt, n.sendmsg, n.poll, n.ppoll, n.clock,
    n.exit, n.exit_group].Nodup

theorem x86_distinct : connector_x86.Distinct := by
  unfold Numbers.Distinct
  decide

theorem arm_distinct : connector_arm.Distinct := by
  unfold Numbers.Distinct
  decide

/-- What kills the process: another architecture, and a close of control. -/
def Killed (numbers : Numbers) (control : Int32) (c : Call) : Prop :=
  c.arch ≠ numbers.audit ∨ c.nr = numbers.close ∧ low (c.args 0) = control.toUInt32

/-- What is let through. `0x80801` is `SOCK_STREAM`, `SOCK_NONBLOCK` and `SOCK_CLOEXEC`, `0x4000` is
`MSG_NOSIGNAL`. -/
def Permitted (numbers : Numbers) (ranges : List Range) (control status : Int32) (c : Call) : Prop :=
  Simple numbers c.nr ∨
  (c.nr = numbers.read ∧ c.args 0 = control.toUInt32.toUInt64) ∨
  (c.nr = numbers.write ∧ (c.args 0 = control.toUInt32.toUInt64 ∨ c.args 0 = status.toUInt32.toUInt64)) ∨
  (c.nr = numbers.close ∧ low (c.args 0) ≠ control.toUInt32) ∨
  (c.nr = numbers.socket ∧ (c.args 0 = 2 ∨ c.args 0 = 10) ∧ c.args 1 = 0x80801 ∧ c.args 2 = 6) ∨
  (c.nr = numbers.connect ∧ ∃ r ∈ ranges, r.Takes c) ∨
  (c.nr = numbers.getsockopt ∧ c.args 1 = 1 ∧ c.args 2 = 4) ∨
  (c.nr = numbers.sendmsg ∧ c.args 2 = 0x4000 ∧ c.args 0 = control.toUInt32.toUInt64)

open scoped Classical in
/-- The answer the policy gives. -/
noncomputable def verdict (numbers : Numbers) (ranges : List Range) (control status : Int32) (c : Call) : UInt32 :=
  if Killed numbers control c then CONNECTOR_KILL
  else if Permitted numbers ranges control status c then CONNECTOR_ALLOW
  else CONNECTOR_REFUSE

section

variable {numbers : Numbers} {ranges : List Range} {control status : Int32} {c : Call}

theorem verdict_of_permitted (hk : ¬Killed numbers control c) (hp : Permitted numbers ranges control status c) :
    verdict numbers ranges control status c = CONNECTOR_ALLOW := by
  rw [verdict, if_neg hk, if_pos hp]

theorem verdict_of_not_permitted (hk : ¬Killed numbers control c) (hp : ¬Permitted numbers ranges control status c) :
    verdict numbers ranges control status c = CONNECTOR_REFUSE := by
  rw [verdict, if_neg hk, if_neg hp]

theorem verdict_of_block {p : Prop} [Decidable p] (harch : c.arch = numbers.audit) (hclose : c.nr ≠ numbers.close)
    (h : Permitted numbers ranges control status c ↔ p) :
    some (if p then CONNECTOR_ALLOW else CONNECTOR_REFUSE) = some (verdict numbers ranges control status c) := by
  have hkilled : ¬Killed numbers control c := by
    rintro (hother | hcontrol)
    · exact hother harch
    · exact hclose hcontrol.1
  by_cases hp : p
  · rw [if_pos hp, verdict_of_permitted hkilled (h.mpr hp)]
  · rw [if_neg hp, verdict_of_not_permitted hkilled (fun hpermitted => hp (h.mp hpermitted))]

open scoped Classical in
theorem run_layout (hn : numbers.Distinct) (hplaced : ∀ r ∈ ranges, r.Placed) (a : UInt32) :
    run c.word (layout numbers ranges control status) 0 a = some (verdict numbers ranges control status c) := by
  -- which numbers differ
  simp only [Numbers.Distinct, nodup_cons, mem_cons, not_mem_nil, or_false, not_or,
    not_false_eq_true, nodup_nil, and_true] at hn
  unfold layout
  rw [run_start, run_calls_insns, run_ranges _ hplaced]
  by_cases harch : c.arch = numbers.audit
  · rw [if_pos harch]
    by_cases hsimple : Simple numbers c.nr
    · have hclose : c.nr ≠ numbers.close := by
        have hmem := hsimple.1
        simp only [mem_cons, not_mem_nil, or_false] at hmem
        grind
      rw [if_pos hsimple]
      exact verdict_of_block harch hclose (iff_of_true (.inl hsimple) trivial)
    · rw [if_neg hsimple]
      have hpolicy : Permitted numbers ranges control status c ↔ _ := or_iff_right hsimple
      -- the numbers are distinct, so that the policy has one line for a call
      by_cases hread : c.nr = numbers.read
      · rw [if_pos hread]
        exact verdict_of_block harch (by simp [hread, hn]) (hpolicy.trans (by simp [hread, hn]))
      rw [if_neg hread]
      by_cases hwrite : c.nr = numbers.write
      · rw [if_pos hwrite]
        exact verdict_of_block harch (by grind) (hpolicy.trans (by grind))
      rw [if_neg hwrite]
      by_cases hclose : c.nr = numbers.close
      · rw [if_pos hclose]
        by_cases hcontrol : low (c.args 0) = control.toUInt32
        · rw [if_pos hcontrol, verdict, if_pos (.inr ⟨hclose, hcontrol⟩)]
        · rw [if_neg hcontrol, verdict_of_permitted]
          · rintro (hother | h)
            · exact hother harch
            · exact hcontrol h.2
          · exact .inr (.inr (.inr (.inl ⟨hclose, hcontrol⟩)))
      rw [if_neg hclose]
      by_cases hsocket : c.nr = numbers.socket
      · rw [if_pos hsocket]
        exact verdict_of_block harch hclose (hpolicy.trans (by grind))
      rw [if_neg hsocket]
      by_cases hconnect : c.nr = numbers.connect
      · rw [if_pos hconnect]
        exact verdict_of_block harch hclose (hpolicy.trans (by grind))
      rw [if_neg hconnect]
      by_cases hgetsockopt : c.nr = numbers.getsockopt
      · rw [if_pos hgetsockopt]
        exact verdict_of_block harch hclose (hpolicy.trans (by grind))
      rw [if_neg hgetsockopt]
      by_cases hsendmsg : c.nr = numbers.sendmsg
      · rw [if_pos hsendmsg]
        exact verdict_of_block harch hclose (hpolicy.trans (by grind))
      rw [if_neg hsendmsg]
      exact verdict_of_block (p := False) harch hclose (hpolicy.trans (by
        simp [hread, hwrite, hclose, hsocket, hconnect, hgetsockopt, hsendmsg]))
  · rw [if_neg harch, verdict, if_pos (.inl harch)]

end

/-- For either architecture and up to 130 ranges, the program fits in what the kernel takes, and
every system call gets the answer of the policy from it. -/
theorem program_judges {numbers : Numbers} (hnumbers : numbers = connector_x86 ∨ numbers = connector_arm)
    {ranges : List Range} (hcount : ranges.length ≤ 130) (hplaced : ∀ r ∈ ranges, r.Placed)
    (control status : Int32) :
    0 < (program numbers ranges control status).length ∧
      (program numbers ranges control status).length ≤ CONNECTOR_INSNS ∧
      ∀ c : Call, run c.word (program numbers ranges control status) 0 0 =
        some (verdict numbers ranges control status c) := by
  have hdistinct : numbers.Distinct := by
    rcases hnumbers with rfl | rfl
    · exact x86_distinct
    · exact arm_distinct
  rw [(program_eq numbers hcount control status).1]
  refine ⟨?_, layout_length numbers hcount control status, fun c => run_layout hdistinct hplaced 0⟩
  unfold layout
  rw [length_append, length_append]
  exact Nat.add_pos_right _ (Nat.add_pos_left (by decide : 0 < 80) _)

theorem program_judges_one : 0 < (program connector_x86 [⟨0x10000, 3, 16⟩] 5 6).length ∧
      (program connector_x86 [⟨0x10000, 3, 16⟩] 5 6).length ≤ CONNECTOR_INSNS ∧
      ∀ c : Call, run c.word (program connector_x86 [⟨0x10000, 3, 16⟩] 5 6) 0 0 =
        some (verdict connector_x86 [⟨0x10000, 3, 16⟩] 5 6 c) := by
  apply program_judges (.inl rfl) (by decide)
  intro r hr
  rw [mem_singleton.mp hr]
  exact ⟨by decide, by decide⟩

/-- The calls allowed for what their arguments are. -/
def Listed (numbers : Numbers) (ranges : List Range) (control status : Int32) (c : Call) : Prop :=
  (c.nr = numbers.read ∧ c.args 0 = control.toUInt32.toUInt64) ∨
  (c.nr = numbers.write ∧ (c.args 0 = control.toUInt32.toUInt64 ∨ c.args 0 = status.toUInt32.toUInt64)) ∨
  (c.nr = numbers.socket ∧ (c.args 0 = 2 ∨ c.args 0 = 10) ∧ c.args 1 = 0x80801 ∧ c.args 2 = 6) ∨
  (c.nr = numbers.connect ∧ ∃ r ∈ ranges, r.Takes c) ∨
  (c.nr = numbers.getsockopt ∧ c.args 1 = 1 ∧ c.args 2 = 4) ∨
  (c.nr = numbers.sendmsg ∧ c.args 2 = 0x4000 ∧ c.args 0 = control.toUInt32.toUInt64)

/-- Not every other call is refused: `poll` is allowed as it is. -/
theorem program_allows_more : ¬∀ (numbers : Numbers) (ranges : List Range) (control status : Int32) (c : Call),
      (numbers = connector_x86 ∨ numbers = connector_arm) → ranges.length ≤ 130 →
      (∀ r ∈ ranges, r.Placed) → ¬Killed numbers control c →
      ¬Listed numbers ranges control status c →
        run c.word (program numbers ranges control status) 0 0 = some CONNECTOR_REFUSE := by
  intro h
  have hpoll := h connector_x86 [] 5 6 ⟨7, 0xc000003e, 0, fun _ => 0⟩ (.inl rfl) (by decide)
    nofun (by unfold Killed; decide) (by simp [Listed, connector_x86])
  exact absurd hpoll (by decide +kernel)

end Cosmic.Connector
