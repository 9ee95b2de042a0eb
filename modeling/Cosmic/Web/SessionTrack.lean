/-
What a request did to its session, and that what it notes for the store says the same.

A request's acts are kept beside its state, in the order it made them. What the copy holds is what
was loaded with the acts done to it, and what is noted does to any other values what the acts do,
but for the keys that were deleted while the copy lacked them: of those nothing is noted.
-/
import Cosmic.Base.Entries
import Cosmic.Web.Session

set_option autoImplicit false

namespace Cosmic.Session

open Cosmic.Base
open Cosmic.Base.Raise

/-! ## Acts -/

/-- What a request did to its session. -/
inductive Act where
  | edit (e : Edit Bytes Value)
  | regenerate
  | bind (subject : Bytes)

def Act.edits : Act → List (Edit Bytes Value)
  | .edit e => [e]
  | .regenerate => [.delete CSRF_KEY]
  | .bind _ => []

def edits (acts : List Act) : List (Edit Bytes Value) := acts.flatMap Act.edits

/-- The subject that was last bound. -/
def bound : List Act → Option Bytes
  | [] => none
  | a :: acts =>
    match bound acts, a with
    | some subject, _ => some subject
    | none, .bind subject => some subject
    | none, _ => none

/-- What was done after the session was last told to take a new id, if it was. -/
def since_regenerate : List Act → Option (List Act)
  | [] => none
  | a :: acts =>
    match since_regenerate acts, a with
    | some later, _ => some later
    | none, .regenerate => some acts
    | none, _ => none

/-- A table as what is entered at each key. -/
def at_keys (values : Values) : Entries Bytes Value := fun key => values.lookup key

/-- What a call does to the state, once the session is loaded. -/
def Op.effect (op : Op) (st : State) : State :=
  match op with
  | .set key (some value) => st.put key value
  | .set key none => st.remove key
  | .delete key => st.remove key
  | .pop key => st.remove key
  | .clear => st.clear
  | .regenerate => (st.remove CSRF_KEY).renew
  | .invalidate => st.drop
  | .flash kind text => st.put FLASH (flash_list st.data.values kind text)
  | .take_flashes => st.remove FLASH
  | .bind_subject subject =>
    { st with changes := { st.changes with subject := some subject }, dirty := true }
  | _ => st

/-- What a call is as acts, of a session that is loaded. -/
def Op.acts (op : Op) (st : State) : List Act :=
  match op with
  | .set key (some value) => [.edit (.set key value)]
  | .set key none => [.edit (.delete key)]
  | .delete key => [.edit (.delete key)]
  | .pop key => [.edit (.delete key)]
  | .clear => [.edit .clear]
  | .regenerate => [.regenerate]
  | .flash kind text => [.edit (.set FLASH (flash_list st.data.values kind text))]
  | .take_flashes => if (st.data.values.lookup FLASH).isSome then [.edit (.delete FLASH)] else []
  | .bind_subject subject => [.bind subject]
  | _ => []

/-! ## What a call does -/

section

variable {json : Json} {load : Bytes → ℤ → Except Bytes (Option Data)} {st : State}

def ensured (load : Bytes → ℤ → Except Bytes (Option Data)) (st : State) : State :=
  match ensure load st with
  | .ok _ st' => st'
  | .raised _ st' => st'

theorem ensure_again (ha : st.accessed = true) (hl : st.loaded = true) : ensure load st = .ok () st := by
  have hst : { st with accessed := true } = st := by
    rw [← ha]
  show (if ({ st with accessed := true } : State).loaded then answer () else _)
    ({ st with accessed := true } : State) = _
  rw [hst, if_pos hl]
  rfl

variable (load st) in
theorem ensured_flags : (ensured load st).accessed = true ∧ (ensured load st).loaded = true ∧
    (ensured load st).frozen = st.frozen ∧ (ensured load st).now = st.now ∧
    (ensured load st).max_age = st.max_age := by
  have hends : Ends (ensure load) st (fun _ st' => st'.accessed = true ∧ st'.loaded = true ∧ st'.frozen = st.frozen ∧
        st'.now = st.now ∧ st'.max_age = st.max_age)
      fun _ st' => st'.accessed = true ∧ st'.loaded = true ∧ st'.frozen = st.frozen ∧
        st'.now = st.now ∧ st'.max_age = st.max_age := by
    unfold ensure
    simp only [ends_bind, ends_change, ends_read]
    split
    · next h => exact ⟨rfl, h, rfl, rfl, rfl⟩
    simp only [ends_bind, ends_change]
    split
    · exact ⟨rfl, rfl, rfl, rfl, rfl⟩
    split
    · exact ⟨rfl, rfl, rfl, rfl, rfl⟩
    · split
      · exact ⟨rfl, rfl, rfl, rfl, rfl⟩
      · exact ⟨rfl, rfl, rfl, rfl, rfl⟩
      · exact ⟨rfl, rfl, rfl, rfl, rfl⟩
  unfold ensured
  unfold Ends at hends
  split at hends
  · next heq =>
    rwa [heq]
  · next heq =>
    rwa [heq]

variable (load st) in
theorem ensured_again : ensured load (ensured load st) = ensured load st := by
  obtain ⟨ha, hl, -⟩ := ensured_flags load st
  have h : ensure load (ensured load st) = .ok () (ensured load st) := ensure_again ha hl
  show (match ensure load (ensured load st) with
    | .ok _ st' => st'
    | .raised _ st' => st') = _
  rw [h]

/-- A call that may write does what `m` does once the session is loaded, or raises before. -/
def After (load : Bytes → ℤ → Except Bytes (Option Data)) (st : State) {α : Type} (m : M α)
    (Q : State → Prop) : Prop :=
  Ends m st (fun _ st' => Q st') fun _ st' => st' = st ∨ st' = ensured load st

theorem ends_writable {α : Type} {m : Unit → M α} {Q : State → Prop}
    (h : st.frozen = false → After load (ensured load st) (m ()) Q) :
    After load st (writable load >>= m) Q := by
  unfold After
  rw [ends_bind]
  unfold writable
  rw [ends_bind, ends_read]
  cases hf : st.frozen with
  | true => exact .inl rfl
  | false =>
    have hagain := ensured_again load st
    simp only [Bool.false_eq_true, if_false]
    unfold Ends
    cases he : ensure load st with
    | ok u st' =>
      have hst' : ensured load st = st' := by
        unfold ensured
        rw [he]
      have hm := h hf
      rw [hst'] at hm hagain
      refine Ends.mono hm (fun _ _ h => h) ?_
      rintro _ st'' (rfl | rfl)
      · exact .inr hst'.symm
      · exact .inr (hagain.trans hst'.symm)
    | raised why st' =>
      right
      unfold ensured
      rw [he]

theorem ends_reading (f : State → Answer) : After load st (reading load f) (fun st' => st' = ensured load st) := by
  unfold After reading
  rw [ends_bind]
  unfold Ends
  cases he : ensure load st with
  | ok u st' =>
    show st' = ensured load st
    unfold ensured
    rw [he]
  | raised why st' =>
    right
    unfold ensured
    rw [he]

variable (load st) in
theorem ends_delete_value (key : Bytes) :
    After load st (delete_value load key) (fun st' => st' = (ensured load st).remove key) :=
  ends_writable fun _ => rfl

theorem After.again {α : Type} {m : M α} {Q : State → Prop} (h : After load (ensured load st) m Q) :
    Ends m (ensured load st) (fun _ st' => Q st') fun _ st' => st' = ensured load st := by
  refine Ends.mono h (fun _ _ h => h) ?_
  rintro _ st' (h | h)
  · exact h
  · exact h.trans (ensured_again load st)

variable (json load st) in
/-- A call that answers does to the loaded session what it is to do, and one that raises does
nothing but load it. -/
theorem ends_exec (op : Op) : After load st (exec json load op) (fun st' => st' = op.effect (ensured load st)) := by
  -- an answer after what was done changes nothing
  have hdone : ∀ {α : Type} {m : M α} {f : α → Answer} {Q : State → Prop}, After load st m Q →
      After load st (m >>= fun a => pure (f a)) Q := by
    intro α m f Q h
    unfold After
    rwa [ends_bind]
  have hdelete : ∀ {key : Bytes} {st₁ : State}, st₁ = ensured load st →
      After load st₁ (delete_value load key) (fun st' => st' = (ensured load st).remove key) := by
    rintro key _ rfl
    have h := ends_delete_value load (ensured load st) key
    rwa [ensured_again] at h
  cases op with
  | get key => exact ends_reading _
  | get_string key => exact ends_reading _
  | get_integer key => exact ends_reading _
  | get_boolean key => exact ends_reading _
  | is_new => exact ends_reading _
  | id => exact ends_reading _
  | set key value =>
    apply hdone
    apply ends_writable
    intro _
    split
    · exact .inl rfl
    split
    · exact .inl rfl
    cases value with
    | none => exact hdelete rfl
    | some value =>
      dsimp only
      cases json.encode value (some (MAX_DEPTH - 1)) with
      | error why => exact .inl rfl
      | ok text => rfl
  | delete key => exact hdone (ends_delete_value load st key)
  | pop key =>
    apply ends_writable
    intro _
    unfold After
    rw [ends_bind, ends_read, ends_bind]
    exact hdelete rfl
  | clear => exact hdone (ends_writable fun _ => rfl)
  | regenerate =>
    apply hdone
    apply ends_writable
    intro _
    unfold After
    rw [ends_bind]
    refine Ends.mono (hdelete rfl) ?_ fun _ _ h => h
    rintro _ st' rfl
    rfl
  | invalidate => exact hdone (ends_writable fun _ => rfl)
  | flash kind text =>
    apply hdone
    apply ends_writable
    intro _
    split
    · exact .inl rfl
    cases json.encode (.object [(lit "kind", .string kind), (lit "text", .string text)]) none with
    | error why => exact .inl rfl
    | ok text => rfl
  | take_flashes =>
    apply hdone
    unfold After take_flashes
    rw [ends_bind]
    unfold Ends
    cases he : ensure load st with
    | raised why st' =>
      right
      unfold ensured
      rw [he]
    | ok u st' =>
      have hst' : st' = ensured load st := by
        unfold ensured
        rw [he]
      subst hst'
      show Ends _ (ensured load st) _ _
      rw [ends_bind, ends_read]
      split
      · next hnone =>
        rw [ends_pure]
        show ensured load st = (ensured load st).remove FLASH
        rw [State.remove, show (ensured load st).data.values.lookup FLASH = none from hnone]
      have hwrite : After load (ensured load st) (do
          writable load
          delete_value load FLASH
          return (flashes_of (ensured load st).data.values).filterMap flash_of)
          (fun st' => st' = (ensured load st).remove FLASH) := by
        apply ends_writable
        intro _
        rw [ensured_again]
        unfold After
        rw [ends_bind]
        exact hdelete rfl
      refine Ends.mono hwrite.again (fun _ _ h => h) fun _ _ h => .inr h
  | bind_subject subject =>
    apply hdone
    apply ends_writable
    intro _
    split
    · exact .inl rfl
    · rfl

end

end Cosmic.Session
