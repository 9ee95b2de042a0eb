/-
What the readers of every level do, and with it what an operation that reads does.

A reader notes how deep it is and which declaration it is reading, and takes the note back before
it answers: what happens between the two is seen from outside without the notes.
-/
import Cosmic.Lang.TypesRead

set_option autoImplicit false

namespace Cosmic.Types

open Cosmic.Base List Bool
open Cosmic.Base.Raise

/-! ## Notes -/

/-- What a reader answers of a store does not depend on what a reader notes there. -/
def Unnoted {α : Type} (K : α → Store → Prop) : Prop := ∀ a s₀ s, K a s → K a (Store.noting s₀ s)

section

variable {o : Outside} {s s₁ s₂ : Store}

theorem Ready.noted (hr : Ready o s) (hn : Store.noting s₁ s = s₁) : Ready o s₁ := by
  rw [← hn]
  have hs := hr.sound
  have htypes : TypesSound o (Store.noting s₁ s) :=
    hs.types.of_decls ((noting_frame s₁).shows s) rfl rfl rfl fun _ h => h
  have hdecls : DeclsSound (Store.noting s₁ s) :=
    ⟨hs.decls.proper, hs.decls.declared, hs.decls.listed, hs.decls.arity, hs.decls.args,
      hs.decls.uses, hs.decls.waiting⟩
  exact ⟨⟨htypes, hdecls, hs.journal.made, hs.journal.idle⟩, hr.pending⟩

theorem Steps.unnoted (h : Steps o s₁ s₂) (hr : Ready o s₁) (hn : Store.noting s s₁ = s) :
    Steps o s (Store.noting s s₂) := by
  have hframe := h.frame (noting_frame s) hr.sound hr.pending
  rwa [hn] at hframe

end

section

variable {o : Outside} {α : Type} {m : R α} {K : α → Store → Prop}

theorem reader_deeper (hm : Reader o m K) (hK : Unnoted K) : Reader o (do
      descend
      let a ← m
      ascend
      return a) K := by
  intro r hr
  let r₁ : Reading := { r with store := { r.store with depth := r.store.depth + 1 } }
  have hn : Store.noting r.store r₁.store = r.store := rfl
  have hr₁ : Ready o r₁.store := hr.noted rfl
  unfold Goes descend
  simp only [ends_bind, ends_change, ends_read]
  split
  · -- too deep: only the note is left
    refine ⟨?_, [], ?_, forall_mem_nil _, ?_⟩
    · exact .refl
    · exact (append_nil _).symm
    · intro path
      rw [contains_nil, Bool.or_false]
  · apply Ends.mono (hm r₁ hr₁)
    · rintro a r₂ ⟨hsteps, ha⟩
      have hback : ({ r₂.store with depth := r₂.store.depth - 1 } : Store) = Store.noting r.store r₂.store := by
        rw [← Steps.noted hsteps]
        rfl
      simp only [ends_pure]
      refine ⟨?_, ?_⟩
      · show Steps o r.store { r₂.store with depth := r₂.store.depth - 1 }
        rw [hback]
        exact Steps.unnoted hsteps hr₁ hn
      · show K a { r₂.store with depth := r₂.store.depth - 1 }
        rw [hback]
        exact hK a r.store r₂.store ha
    · rintro e r₂ ⟨hsteps, hopened⟩
      have hback := Steps.unnoted hsteps hr₁ hn
      exact ⟨hback, hopened⟩

theorem goes_building (key : Bytes) {m : R Unit} {r : Reading} (hr : Ready o r.store)
    (hm : ∀ r', Ready o r'.store → Store.noting r.store r'.store = r.store →
      Goes (Took o) (Left o) m r' fun _ _ => True) :
    Goes (Took o) (Left o) (do
      let first ← build key
      m
      if first then built key) r fun _ _ => True := by
  unfold Goes build
  simp only [ends_bind, ends_read]
  by_cases hfirst : r.store.building key = true
  · rw [hfirst]
    simp only [Bool.not_true, false_eq_true, if_false, ends_pure]
    exact hm r hr rfl
  rw [not_eq_true] at hfirst
  rw [hfirst]
  let r₁ : Reading := { r with store := { r.store with
    building := fun path => path == key || r.store.building path
    building_order := r.store.building_order ++ [key] } }
  have hn : Store.noting r.store r₁.store = r.store := rfl
  have hr₁ : Ready o r₁.store := hr.noted rfl
  simp only [Bool.not_false, if_true, ends_change, ends_pure, ends_bind]
  apply Ends.mono (hm r₁ hr₁ hn)
  · rintro _ r₂ ⟨hsteps, -⟩
    have hb : r₂.store.building = r₁.store.building := by rw [← Steps.noted hsteps]; rfl
    have ho : r₂.store.building_order = r₁.store.building_order := by
      rw [← Steps.noted hsteps]; rfl
    have hbuilding : (fun path => path != key && r₂.store.building path) = r.store.building := by
      funext path
      rw [hb]
      show (path != key && (path == key || r.store.building path)) = r.store.building path
      by_cases hp : path = key
      · rw [hp, hfirst]
        simp
      · have hbeq : (path == key) = false := beq_eq_false_iff_ne.mpr hp
        rw [bne, hbeq]
        rfl
    have horder : r₂.store.building_order.dropLast = r.store.building_order := by
      rw [ho]
      exact dropLast_concat
    have hback : ({ r₂.store with
        building := fun path => path != key && r₂.store.building path
        building_order := r₂.store.building_order.dropLast } : Store) = Store.noting r.store r₂.store := by
      rw [hbuilding, horder]
      have hd : r₂.store.depth = r.store.depth := by rw [← Steps.noted hsteps]; rfl
      unfold Store.noting
      rw [← hd]
    refine (ends_change _).mpr ⟨?_, trivial⟩
    rw [hback]
    exact Steps.unnoted hsteps hr₁ hn
  · rintro e r₂ ⟨hsteps, opened, horder, hnew, hbuilding⟩
    have hback := Steps.unnoted hsteps hr₁ hn
    refine ⟨hback, key :: opened, ?_, ?_, ?_⟩
    · rw [horder]
      rw [append_assoc]
      rfl
    · intro path hpath
      rcases mem_cons.mp hpath with rfl | hpath
      · exact hfirst
      · have hnot : (path == key || r.store.building path) = false := hnew path hpath
        exact (or_eq_false_iff.mp hnot).2
    · intro path
      rw [hbuilding path, contains_cons]
      show ((path == key || r.store.building path) || opened.contains path) = _
      cases path == key <;> cases r.store.building path <;> rfl

end

theorem Scans.goes_bind {o : Outside} {α β : Type} {m : R α} {f : α → R β} {r : Reading}
    {Q : β → Reading → Prop} (hm : Scans m)
    (hf : ∀ a r', r'.store = r.store → Goes (Took o) (Left o) (f a) r' Q) :
    Goes (Took o) (Left o) (m >>= f) r Q := by
  apply Raise.goes_bind
  · apply Ends.mono (hm r)
    · rintro a r' ⟨hsame, -⟩
      have hsteps : Steps o r.store r'.store := by rw [show r'.store = r.store from hsame]
      exact ⟨hsteps, hsame⟩
    · intro _ r' hsame
      have hsteps : Steps o r.store r'.store := by rw [show r'.store = r.store from hsame]
      exact hsteps.reads
  · exact fun a r' _ hsame => hf a r' hsame

/-! ## The readers of a level -/

/-- What a reader of a type answers. -/
abbrev Live (t : ℕ) (s : Store) : Prop := s.alive t = true

theorem live_unnoted : Unnoted Live := fun _ s₀ s h => ((noting_frame s₀).shows s).alive h

section

variable {o : Outside} {rd : Readers} (hrd : ReadersSpec o rd) (loader : Option Loader) (text : Bytes)

include hrd

theorem reader_type : Reader o (rd.type text) fun _ _ => True := (hrd.type text).weaken

theorem reader_slot : Reader o (read_slot rd text) fun _ _ => True := by
  apply (scans_head text).reader.bind
  intro word
  apply reader_ite
  · apply (scans_expect text _).reader.bind
    intro _
    apply (hrd.type text).bind
    intro t
    exact (scans_close text).reader.bind fun _ => reader_pure _
  · exact (hrd.type text).bind fun t => reader_pure _

theorem reader_types : Reader o (read_types rd text) fun _ _ => True := reader_items text (reader_type hrd text)

theorem reader_alt_item : Reader o (read_alt_item rd text) fun _ _ => True := by
  apply (scans_head text).reader.bind
  intro word
  apply reader_ite
  · apply (scans_expect text _).reader.bind
    intro _
    apply (hrd.type text).bind
    intro t
    exact (scans_close text).reader.bind fun _ => reader_pure _
  apply reader_ite
  · apply (scans_expect text _).reader.bind
    intro _
    apply (scans_integer text).reader.bind
    intro param
    apply (hrd.type text).bind
    intro t
    exact (scans_close text).reader.bind fun _ => reader_pure _
  · exact (hrd.type text).bind fun t => reader_pure _

theorem reader_alt : Reader o (read_alt rd text) fun _ _ => True := by
  apply (scans_open text).reader.bind
  intro _
  apply (reader_items text (reader_alt_item hrd text)).bind
  intro read
  exact (scans_close text).reader.bind fun _ => reader_pure _

theorem reader_bound : Reader o (read_bound rd text) fun _ _ => True := by
  apply (scans_is_next text _).reader.bind
  intro bare
  apply reader_ite
  · exact (scans_atom text).reader.bind fun _ => reader_pure _
  · exact (hrd.type text).bind fun t => reader_pure _

theorem reader_param : Reader o (read_param rd text) fun _ _ => True := by
  apply (scans_head text).reader.bind
  intro word
  apply reader_ite
  · apply (scans_expect text _).reader.bind
    intro _
    apply (hrd.type text).bind
    intro t
    exact (scans_close text).reader.bind fun _ => reader_pure _
  · exact (reader_slot hrd text).bind fun slot => reader_pure _

theorem reader_fn : Reader o (read_fn o rd text) Live := by
  apply (scans_expect text _).reader.bind
  intro _
  apply (reader_items text (reader_bound hrd text)).bind
  intro tparams
  apply (scans_close text).reader.bind
  intro _
  apply (scans_open text).reader.bind
  intro _
  apply (reader_items text (reader_param hrd text)).bind
  intro params
  apply (scans_close text).reader.bind
  intro _
  apply (scans_expect text _).reader.bind
  intro _
  apply (reader_items text (reader_alt hrd text)).bind
  intro rets
  apply (scans_close text).reader.bind
  intro _
  exact reader_stepping fun s hs => (growing_fn hs _).stepping

theorem reader_ask (module name : Bytes) : Reader o (ask_loader o rd loader module name) fun _ _ => True := by
  intro r hr
  apply goes_read_bind
  cases loader with
  | none => exact goes_pure trivial
  | some load =>
    exact reader_on_store (fun s hs => (stepping_program hrd (load module name r.store) hs).reads) r hr

theorem reader_resolve (module name : Bytes) : Reader o (resolve o rd loader module name) fun _ _ => True := by
  intro r hr
  apply goes_read_bind
  cases r.store.declared (path_key module name) with
  | some d => exact reader_ite (reader_fail _) (reader_pure d) r hr
  | none =>
    apply goes_bind (reader_ask hrd loader module name r hr)
    rintro (_ | text) r' hs -
    · exact reader_fail (K := fun _ _ => True) _ r' (hr.steps hs)
    · exact (reader_on_store fun s hs => hrd.declaration text _ s hs).weaken r' (hr.steps hs)

theorem reader_form (word : Bytes) : Reader o (read_form o rd loader text word) Live := by
  apply reader_ite
  · apply (hrd.type text).bind
    intro element
    exact reader_stepping fun s hs =>
      Growing.stepping ((growing_array hs element _).mono fun _ _ _ h => h.1)
  apply reader_ite
  · apply (hrd.type text).bind
    intro key
    apply (hrd.type text).bind
    intro value
    exact reader_stepping fun s hs =>
      Growing.stepping ((growing_map hs key value _).mono fun _ _ _ h => h.1)
  apply reader_ite
  · apply (reader_types hrd text).bind
    intro members
    exact reader_stepping fun s hs =>
      Growing.stepping ((growing_union_of hs members).mono fun _ _ _ h => h.1)
  apply reader_ite
  · apply (scans_string_of text).reader.bind
    intro module
    apply (scans_string_of text).reader.bind
    intro name
    apply (reader_resolve hrd loader module name).bind
    intro d
    apply (reader_types hrd text).bind
    intro args
    exact reader_stepping fun s hs => (stepping_named hs d args _).mono fun _ _ _ h => h.1
  apply reader_ite
  · apply (scans_integer text).reader.bind
    intro depth
    apply (scans_integer text).reader.bind
    intro index
    exact reader_stepping fun s hs => (growing_var hs _ _).stepping
  apply reader_ite
  · exact reader_fn hrd text
  · exact reader_fail _

omit hrd in
theorem reader_atom : Reader o (read_atom text) Live := by
  apply (scans_atom text).reader.bind
  intro word
  cases ATOMS.find? (fun tag => tag.text = word) with
  | some tag => exact fun r hr => goes_pure (hr.sound.types.atoms.alive tag)
  | none => exact reader_fail _

theorem reader_parenthesised : Reader o (read_parenthesised o rd loader text) Live := by
  apply (scans_open text).reader.bind
  intro _
  apply (scans_atom text).reader.bind
  intro word r hr
  apply goes_bind (reader_form hrd loader text word r hr)
  intro t r' _ ht
  apply (scans_close text).goes_bind
  intro _ r'' hsame
  exact goes_pure (by rw [Live, hsame]; exact ht)

theorem reader_read_type : Reader o (read_type o rd loader text) Live := by
  have heq : read_type o rd loader text = (do
      descend
      let t ← (do
        let c ← peek text
        if c = .atom then read_atom text
        else if c = .lparen then read_parenthesised o rd loader text
        else fail (lit "a type was expected"))
      ascend
      return t) := by
    simp only [bind_assoc]
    refine bind_congr fun _ => bind_congr fun c => ?_
    cases c <;> rfl
  rw [heq]
  apply reader_deeper ?_ live_unnoted
  apply (scans_peek text).reader.bind
  intro c
  exact reader_ite (reader_atom text) (reader_ite (reader_parenthesised hrd loader text) (reader_fail _))

theorem reader_tparam : Reader o (read_tparam rd text) fun _ _ => True := by
  apply (scans_expect text _).reader.bind
  intro _
  apply (scans_string_of text).reader.bind
  intro name
  apply (scans_peek text).reader.bind
  intro c
  apply reader_ite
  · apply (hrd.type text).bind
    intro t
    exact (scans_close text).reader.bind fun _ => reader_pure _
  · exact (scans_close text).reader.bind fun _ => reader_pure _

theorem reader_field : Reader o (read_field rd text) fun _ _ => True := by
  apply (scans_expect text _).reader.bind
  intro _
  apply (scans_string_of text).reader.bind
  intro name
  apply (scans_is_next text _).reader.bind
  intro mutable
  have hrest : Reader o (do
      let slot ← read_slot rd text
      close text
      return ({ name, type := slot.1, mutable, omittable := slot.2 } : Field)) fun _ _ => True :=
    (reader_slot hrd text).bind fun slot => (scans_close text).reader.bind fun _ => reader_pure _
  apply reader_ite
  · exact (scans_atom text).reader.bind fun _ => hrest
  · exact hrest

theorem reader_method : Reader o (read_method rd text) fun _ _ => True := by
  apply (scans_expect text _).reader.bind
  intro _
  apply (scans_string_of text).reader.bind
  intro name
  apply (hrd.type text).bind
  intro type
  exact (scans_close text).reader.bind fun _ => reader_pure _

theorem reader_elements : Reader o (read_elements rd text) fun _ _ => True := by
  apply (scans_peek text).reader.bind
  intro c
  apply reader_ite (reader_pure _)
  exact (hrd.type text).bind fun t => reader_pure _

theorem reader_alias : Reader o (read_alias rd text) fun _ _ => True := by
  apply (scans_peek text).reader.bind
  intro c
  apply reader_ite (reader_pure _)
  apply (scans_expect text _).reader.bind
  intro _
  apply (hrd.type text).bind
  intro t
  exact (scans_close text).reader.bind fun _ => reader_pure _

theorem reader_body (decl : Decl) : Reader o (read_body rd text decl) fun _ _ => True := by
  apply (reader_items text (reader_tparam hrd text)).bind
  intro tparams
  apply (scans_close text).reader.bind
  intro _
  apply (reader_stepping fun s hs => stepping_declare hs _ _ _ _).bind
  intro _
  apply (scans_expect text _).reader.bind
  intro _
  apply (reader_types hrd text).bind
  intro supers
  apply (scans_close text).reader.bind
  intro _
  apply (scans_expect text _).reader.bind
  intro _
  apply (reader_items text (reader_field hrd text)).bind
  intro fields
  apply (scans_close text).reader.bind
  intro _
  apply (scans_expect text _).reader.bind
  intro _
  apply (reader_elements hrd text).bind
  intro array
  apply (scans_close text).reader.bind
  intro _
  apply (scans_expect text _).reader.bind
  intro _
  apply (reader_items text (reader_method hrd text)).bind
  intro methods
  apply (scans_close text).reader.bind
  intro _
  apply (scans_expect text _).reader.bind
  intro _
  apply (reader_items text (scans_string_of text).reader).bind
  intro values
  apply (scans_close text).reader.bind
  intro _
  exact (reader_alias hrd text).bind fun alias_ => reader_pure _

end

/-! ## Declarations read -/

section

variable {o : Outside} {rd : Readers} {s : Store}

theorem on_store_bind {α β : Type} (m : M α) (f : α → M β) :
    on_store (m >>= f) = on_store m >>= fun a => on_store (f a) := by
  funext r
  show on_store (andThen m f) r = andThen (on_store m) (fun a => on_store (f a)) r
  unfold on_store andThen
  cases h : m r.store with
  | ok a s => simp only [h]
  | raised e s => simp only [h]

theorem goes_on_store {α : Type} {m : M α} {K : α → Store → Prop} {r : Reading}
    (h : Goes (Steps o) (Reads o) m r.store K) :
    Goes (Took o) (Left o) (on_store m) r fun a r' => K a r'.store := by
  unfold Goes Ends at h ⊢
  unfold on_store
  cases hrun : m r.store with
  | ok a s =>
    rwa [hrun] at h
  | raised e s =>
    rwa [hrun] at h

theorem quiet_encode (t : ℕ) : Quiet (encode o t) s fun _ => True := by
  apply goes_read_bind
  apply goes_refuse_bind
  exact fun _ => goes_pure trivial

theorem quiet_encodes (ts : List ℕ) : Quiet (each (encode o) ts) s fun _ => True :=
  (quiet_each ts fun t _ => quiet_encode t).mono fun _ _ _ _ => trivial

theorem quiet_slot_text (type : ℕ) (omittable : Bool) : Quiet (slot_text o type omittable) s fun _ => True :=
  goes_quiet_bind (quiet_encode type) fun _ _ => goes_pure trivial

theorem quiet_declaration_text (decl : Decl) (body : Body) :
    Quiet (declaration_text o decl body) s fun _ => True := by
  apply goes_quiet_bind (quiet_each (K := fun _ _ => True) body.tparams fun tp _ =>
    goes_quiet_bind (quiet_encodes tp.bound.toList) fun _ _ => goes_pure trivial)
  intro _ _
  apply goes_quiet_bind (quiet_encodes body.supers)
  intro _ _
  apply goes_quiet_bind (quiet_each (K := fun _ _ => True) body.fields fun field _ =>
    goes_quiet_bind (quiet_slot_text field.type field.omittable) fun _ _ => goes_pure trivial)
  intro _ _
  apply goes_quiet_bind (quiet_encodes body.array.toList)
  intro _ _
  apply goes_quiet_bind (quiet_each (K := fun _ _ => True) body.methods fun method _ =>
    goes_quiet_bind (quiet_encode method.type) fun _ _ => goes_pure trivial)
  intro _ _
  apply goes_quiet_bind (quiet_encodes body.alias_.toList)
  exact fun _ _ => goes_pure trivial

theorem Suits.of_head {decl decl' : Decl} {body : Body} (hhead : decl'.head = decl.head)
    (h : Suits decl body) : Suits decl' body := by
  have hkind := Decl.head_kind hhead
  exact ⟨hkind ▸ h.enum, hkind ▸ h.alias_, hkind ▸ h.no_alias, hkind ▸ h.no_values⟩

theorem Bodied.of_head {decl decl' : Decl} {body : Body} (hhead : decl'.head = decl.head)
    (h : Bodied s decl body) : Bodied s decl' body :=
  { h with suits := h.suits.of_head hhead }

/-- The declaration `d` is one that was `decl` but for what it was told since. -/
def Was (s : Store) (d : ℕ) (decl : Decl) : Prop :=
  ∃ now, s.decl d = some now ∧ now.dead = false ∧ now.head = decl.head

theorem Was.shows {s' : Store} {d : ℕ} {decl : Decl} (hs : Shows s s') (h : Was s d decl) : Was s' d decl := by
  obtain ⟨now, hd, hdead, hhead⟩ := h
  obtain ⟨now', hd', hhead'⟩ := hs.decl hd hdead
  exact ⟨now', hd', (Decl.head_dead hhead').trans hdead, hhead'.trans hhead⟩

theorem reader_settle_body {d : ℕ} {decl : Decl} (body : Body) {r : Reading} (hr : Ready o r.store)
    (hwas : Was r.store d decl) :
    Goes (Took o) (Left o) (settle_body o d decl body) r fun _ _ => True := by
  have hnormal : Reader o (on_store (normal_body o d decl body)) fun made s => Bodied s decl made :=
    reader_stepping fun s hs => Growing.stepping ((growing_normal_body hs d decl body).mono fun _ _ _ h => h.1)
  apply goes_bind (hnormal r hr)
  intro made r₁ hs₁ hmade
  have hr₁ := hr.steps hs₁
  have hwas₁ := hwas.shows (Steps.shows hs₁)
  apply goes_read_bind
  have hquiet : ∀ body, Reader o (on_store (declaration_text o decl body)) fun _ _ => True :=
    fun body => reader_stepping fun s _ =>
      (quiet_declaration_text decl body).goes.mono fun _ _ _ _ => trivial
  cases hheld : (r₁.store.decl d).bind Decl.body with
  | some held =>
    have hcompare : Reader o (do
        let new_text ← on_store (declaration_text o decl made)
        let held_text ← on_store (declaration_text o decl held)
        if new_text ≠ held_text then
          fail (lit "the text differs from the declaration " ++ decl.name ++ lit " the store holds"))
        fun _ _ => True :=
      (hquiet made).bind fun _ => (hquiet held).bind fun _ => reader_ite (reader_fail _) (reader_pure _)
    exact hcompare r₁ hr₁
  | none =>
    obtain ⟨now, hd, hdead, hhead⟩ := hwas₁
    have hbody : now.body = none := by rw [hd] at hheld; exact hheld
    rw [← on_store_bind]
    apply goes_on_store (K := fun _ _ => True)
    apply goes_quiet_bind (quiet_declared r₁.store d)
    rintro now' ⟨hd', hdead'⟩
    rw [hd] at hd'
    cases hd'
    exact (stepping_give_body hd hdead hbody (hmade.of_head hhead)).reads

/-- `read_declaration` from where the declaration is known and noted. -/
def read_inside (o : Outside) (rd : Readers) (text : Bytes) (d : ℕ) (decl : Decl) : R Unit := do
  expect text (lit "tparams")
  let body ← read_body rd text decl
  close text
  check_end text (lit "declaration")
  settle_body o d decl body

/-- `read_declaration` one level deeper. -/
def read_declared (o : Outside) (rd : Readers) (text : Bytes) (path : Option (Bytes × Bytes)) : R ℕ := do
  expect text (lit "decl")
  let kind ← atom text
  match DECL_KINDS.find? (fun k => k.text = kind) with
  | none => fail (lit "there is no declaration kind " ++ kind)
  | some decl_kind =>
    let path_module ← string_of text
    let path_name ← string_of text
    match path with
    | some (module, name) =>
      if module ≠ path_module ∨ name ≠ path_name then
        fail (lit "the declaration " ++ path_module ++ lit " " ++ path_name ++
          lit " answers for " ++ module ++ lit " " ++ name)
    | none => Raise.answer ()
    let d ← on_store (declare decl_kind path_module (read_field_names path_name) none)
    let decl ← on_store (declared_here d)
    let first ← build decl.key
    read_inside o rd text d decl
    if first then built decl.key
    return d

theorem read_declaration_eq (text : Bytes) (path : Option (Bytes × Bytes)) :
    read_declaration o rd text path = reading (do
      check_utf8 text
      descend
      let d ← read_declared o rd text path
      ascend
      return d) := by
  unfold read_declaration read_declared read_inside
  simp only [bind_assoc]
  refine congrArg reading (bind_congr fun _ => bind_congr fun _ => bind_congr fun _ =>
    bind_congr fun kind => ?_)
  cases DECL_KINDS.find? (fun k => k.text = kind) with
  | none => rfl
  | some decl_kind =>
    simp only [bind_assoc]
    refine bind_congr fun path_module => bind_congr fun path_name => ?_
    rcases path with _ | ⟨module, name⟩
    · simp only [bind_assoc]
      refine bind_congr fun _ => bind_congr fun d => bind_congr fun decl => bind_congr fun first =>
        bind_congr fun _ => bind_congr fun _ => bind_congr fun _ => bind_congr fun _ => bind_congr fun _ => ?_
      cases first <;> rfl
    · dsimp only
      split
      · rfl
      · simp only [bind_assoc]
        refine bind_congr fun d => bind_congr fun decl => bind_congr fun first => bind_congr fun _ =>
          bind_congr fun _ => bind_congr fun _ => bind_congr fun _ => bind_congr fun _ => ?_
        cases first <;> rfl

theorem reader_inside (hrd : ReadersSpec o rd) (text : Bytes) {d : ℕ} {decl : Decl} {r : Reading}
    (hr : Ready o r.store) (hwas : Was r.store d decl) :
    Goes (Took o) (Left o) (read_inside o rd text d decl) r fun _ _ => True := by
  have hcarry : ∀ {r r' : Reading}, Took o r r' → Was r.store d decl → Was r'.store d decl :=
    fun hs hw => hw.shows (Steps.shows hs)
  apply (scans_expect text _).goes_bind
  intro _ r₁ h₁
  rw [← h₁] at hr hwas
  apply goes_bind (reader_body hrd text decl r₁ hr)
  intro body r₂ hs₂ _
  apply (scans_close text).goes_bind
  intro _ r₃ h₃
  apply (scans_check_end text _).goes_bind
  intro _ r₄ h₄
  have hstore : r₄.store = r₂.store := h₄.trans h₃
  apply reader_settle_body body
  · rw [hstore]
    exact hr.steps hs₂
  · rw [hstore]
    exact hcarry hs₂ hwas

theorem reader_declared (hrd : ReadersSpec o rd) (text : Bytes) (path : Option (Bytes × Bytes)) :
    Reader o (read_declared o rd text path) fun d s => s.decl_alive d = true := by
  -- what is read once the path is known to be the one asked for
  have hrest : ∀ decl_kind path_module path_name, Reader o (do
      let d ← on_store (declare decl_kind path_module (read_field_names path_name) none)
      let decl ← on_store (declared_here d)
      let first ← build decl.key
      read_inside o rd text d decl
      if first then built decl.key
      return d) fun d s => s.decl_alive d = true := by
    intro decl_kind path_module path_name
    apply (reader_stepping fun s hs => stepping_declare hs _ _ _ _).bind
    intro d r hr
    have hdeclared : Goes (Took o) (Left o) (on_store (declared_here d)) r fun decl r' =>
        r'.store = r.store ∧ r.store.decl d = some decl ∧ decl.dead = false :=
      goes_on_store (quiet_declared r.store d).goes
    apply goes_bind hdeclared
    rintro decl r₁ - ⟨h₁, hd, hdead⟩
    rw [← h₁] at hr hd
    have hbuilding : Goes (Took o) (Left o) (do
        let first ← build decl.key
        read_inside o rd text d decl
        if first then built decl.key) r₁ fun _ _ => True := by
      apply goes_building decl.key hr
      intro r' hr' hn
      apply reader_inside hrd text hr'
      refine ⟨decl, ?_, hdead, rfl⟩
      rwa [← hn] at hd
    have heq : (do
        let first ← build decl.key
        read_inside o rd text d decl
        if first then built decl.key
        return d) = (do
        (do
          let first ← build decl.key
          read_inside o rd text d decl
          if first then built decl.key)
        return d) := by
      simp only [bind_assoc]
      refine bind_congr fun first => bind_congr fun _ => ?_
      cases first <;> rfl
    rw [heq]
    apply goes_bind hbuilding
    intro _ r₂ hs₂ _
    exact goes_pure ((Steps.shows hs₂).decl_alive (decl_alive_iff.mpr ⟨decl, hd, hdead⟩))
  apply (scans_expect text _).reader.bind
  intro _
  apply (scans_atom text).reader.bind
  intro kind
  cases DECL_KINDS.find? (fun k => k.text = kind) with
  | none => exact reader_fail _
  | some decl_kind =>
    apply (scans_string_of text).reader.bind
    intro path_module
    apply (scans_string_of text).reader.bind
    intro path_name
    rcases path with _ | ⟨module, name⟩
    · exact hrest decl_kind path_module path_name
    · exact reader_ite (reader_fail _) (hrest decl_kind path_module path_name)

theorem decl_unnoted : Unnoted fun (d : ℕ) (s : Store) => s.decl_alive d = true :=
  fun _ s₀ s h => ((noting_frame s₀).shows s).decl_alive h

theorem goes_read_declaration (hrd : ReadersSpec o rd) (text : Bytes) (path : Option (Bytes × Bytes))
    (hs : Ready o s) :
    Goes (Steps o) (Reads o) (read_declaration o rd text path) s fun d s' => s'.decl_alive d = true := by
  rw [read_declaration_eq]
  apply goes_reading ?_ hs
  apply (scans_check_utf8 text).reader.bind
  intro _
  exact reader_deeper (reader_declared hrd text path) decl_unnoted

end

/-! ## The readers of every level -/

theorem readers_spec (o : Outside) (loader : Option Loader) (n : ℕ) : ReadersSpec o (readers o loader n) := by
  induction n with
  | zero =>
    have hdescend : ∀ {α : Type} {K : α → Store → Prop}, Unnoted K → Reader o (do
        descend
        fail (lit "text nests deeper than " ++ tostring MAX_DEPTH)) K := by
      intro α K hK
      exact reader_deeper (m := fail (lit "text nests deeper than " ++ tostring MAX_DEPTH)) (reader_fail _) hK
    refine ⟨fun text => hdescend live_unnoted, fun text path s hs => ?_⟩
    apply goes_reading ?_ hs
    apply (scans_check_utf8 text).reader.bind
    exact fun _ => hdescend decl_unnoted
  | succ n ih =>
    exact ⟨fun text => reader_read_type ih loader text,
      fun text path s hs => goes_read_declaration ih text path hs⟩

end Cosmic.Types
