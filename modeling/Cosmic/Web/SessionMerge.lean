/-
What a request notes for the store says what it did.

Every call keeps it: the copy is what was loaded with the acts done to it, and the changes do to
any values what the acts do, but for a key that was deleted while the copy lacked it, of which
nothing is noted.
-/
import Cosmic.Web.SessionTrack

set_option autoImplicit false

namespace Cosmic.Session

open Cosmic.Base List

/-! ## Applying changes -/

theorem lookup_enter_all {es : List (Σ _ : Bytes, Value)} (h : es.NodupKeys) (base : Values)
    (key : Bytes) : (es.foldl (fun out e => out.insert e.1 e.2) base).lookup key =
      (es.dlookup key).or (base.lookup key) := by
  induction es generalizing base with
  | nil => rfl
  | cons e es ih =>
    obtain ⟨hnew, hrest⟩ := nodupKeys_cons.mp h
    rw [foldl_cons, ih hrest]
    by_cases hk : key = e.1
    · subst hk
      rw [dlookup_cons_eq, dlookup_eq_none.mpr hnew, AList.lookup_insert]
      rfl
    · rw [dlookup_cons_ne _ _ hk, AList.lookup_insert_ne hk]

theorem lookup_erase_all (keys : List Bytes) (base : Values) (key : Bytes) :
    (keys.foldl (fun out key => out.erase key) base).lookup key =
      if key ∈ keys then none else base.lookup key := by
  induction keys generalizing base with
  | nil => simp
  | cons k keys ih =>
    rw [foldl_cons, ih]
    by_cases hmem : key ∈ keys
    · rw [if_pos hmem, if_pos (mem_cons_of_mem k hmem)]
    rw [if_neg hmem]
    by_cases hk : key = k
    · rw [if_pos (hk ▸ mem_cons_self), hk, AList.lookup_erase]
    · rw [if_neg (by simp [hk, hmem]), AList.lookup_erase_ne hk]

theorem lookup_apply (base : Values) (c : Changes) (key : Bytes) :
    (apply base c).lookup key = if key ∈ c.removed then none
      else (c.set.lookup key).or (if c.cleared then none else base.lookup key) := by
  rw [apply, lookup_erase_all, lookup_enter_all c.set.nodupKeys]
  have hbase : (if c.cleared = true then ∅ else base).lookup key =
      if c.cleared = true then none else base.lookup key := by
    split
    · exact AList.lookup_empty key
    · rfl
  rw [hbase]
  rfl

theorem lookup_apply_put (base : Values) (c : Changes) (k key : Bytes) (value : Value) :
    (apply base (c.put k value)).lookup key =
      if key = k then some value else (apply base c).lookup key := by
  rw [lookup_apply, lookup_apply]
  simp only [Changes.put, List.mem_filter, decide_eq_true_eq]
  by_cases hk : key = k
  · subst hk
    rw [if_pos rfl, if_neg (fun h => h.2 rfl), AList.lookup_insert]
    rfl
  · rw [if_neg hk, AList.lookup_insert_ne hk]
    by_cases hgone : key ∈ c.removed
    · rw [if_pos hgone, if_pos ⟨hgone, hk⟩]
    · rw [if_neg hgone, if_neg (fun h => hgone h.1)]
      rfl

theorem lookup_apply_remove (base : Values) (c : Changes) (k key : Bytes) : (apply base (c.remove k)).lookup key =
      if key = k then none else (apply base c).lookup key := by
  rw [lookup_apply, lookup_apply]
  simp only [Changes.remove, mem_append, List.mem_filter, mem_singleton, decide_eq_true_eq]
  by_cases hk : key = k
  · rw [if_pos hk, if_pos (.inr hk)]
  · rw [if_neg hk, AList.lookup_erase_ne hk]
    by_cases hgone : key ∈ c.removed
    · rw [if_pos hgone, if_pos (.inl ⟨hgone, hk⟩)]
    · rw [if_neg hgone, if_neg (fun h => h.elim (fun h => hgone h.1) hk)]
      rfl

/-! ## Acts one after another -/

theorem edits_snoc (acts : List Act) (a : Act) : edits (acts ++ [a]) = edits acts ++ a.edits := by
  rw [edits, flatMap_append, flatMap_singleton, ← edits]

theorem bound_snoc (acts : List Act) (a : Act) : bound (acts ++ [a]) =
    match a with
    | .bind subject => some subject
    | _ => bound acts := by
  induction acts with
  | nil => cases a <;> rfl
  | cons b acts ih =>
    simp only [cons_append, bound, ih]
    cases a with
    | bind subject => rfl
    | _ => rfl

/-! ## Following the edits -/

/-- The key was deleted while the copy lacked it, and nothing else was said of it. -/
structure Missed (copy : Values) (es : List (Edit Bytes Value)) (key : Bytes) : Prop where
  lacked : copy.lookup key = none
  deleted : .delete key ∈ es
  not_set : ∀ value, .set key value ∉ es
  not_cleared : .clear ∉ es

/-- The copy holds what was loaded with the edits done to it, and the changes do to the values of any
session what the edits do, but for a key that was missed. -/
structure Follows (st : State) (es : List (Edit Bytes Value)) (copy : Values) : Prop where
  values : ∀ key, st.data.values.lookup key = edited (at_keys copy) es key
  merges : ∀ (base : Values) (key : Bytes), (st.valid = false → base = ∅) →
    (Missed copy es key → base.lookup key = none) → (apply base st.changes).lookup key = edited (at_keys base) es key
  anonymous : st.valid = false → copy = ∅

section

variable {st : State} {es : List (Edit Bytes Value)} {copy : Values}

theorem Missed.snoc {key : Bytes} {e : Edit Bytes Value} (h : Missed copy es key)
    (hset : ∀ value, e ≠ .set key value) (hclear : e ≠ .clear) : Missed copy (es ++ [e]) key where
  lacked := h.lacked
  deleted := mem_append_left _ h.deleted
  not_set := by
    intro value hmem
    rcases mem_append.mp hmem with hmem | hmem
    · exact h.not_set value hmem
    · exact hset value (mem_singleton.mp hmem).symm
  not_cleared := by
    intro hmem
    rcases mem_append.mp hmem with hmem | hmem
    · exact h.not_cleared hmem
    · exact hclear (mem_singleton.mp hmem).symm

theorem Follows.put (h : Follows st es copy) (k : Bytes) (value : Value) :
    Follows (st.put k value) (es ++ [.set k value]) copy where
  values := by
    intro key
    rw [edited_append, edited_one]
    by_cases hk : key = k
    · subst hk
      exact (AList.lookup_insert _).trans (Entries.enter_self _ _ _).symm
    · exact (AList.lookup_insert_ne hk).trans ((h.values key).trans (Entries.enter_ne hk value).symm)
  merges := by
    intro base key hbase hmissed
    rw [edited_append, edited_one]
    refine (lookup_apply_put base st.changes k key value).trans ?_
    by_cases hk : key = k
    · subst hk
      rw [if_pos rfl]
      exact (Entries.enter_self _ _ _).symm
    have hbefore : Missed copy es key → base.lookup key = none := by
      intro hm
      refine hmissed (hm.snoc ?_ ?_)
      · rintro v heq
        injection heq with heq _
        exact hk heq.symm
      · nofun
    rw [if_neg hk, h.merges base key hbase hbefore]
    exact (Entries.enter_ne hk value).symm
  anonymous := h.anonymous

/-- Of a key that the copy lacks nothing is noted, which says the same of a session that lacks it too
or where an edit said something of the key before. -/
theorem Follows.lacks (h : Follows st es copy) {k : Bytes} (hk : st.data.values.lookup k = none)
    {base : Values} (hbase : st.valid = false → base = ∅)
    (hmissed : Missed copy (es ++ [.delete k]) k → base.lookup k = none) :
    (apply base st.changes).lookup k = none := by
  have hbefore : Missed copy es k → base.lookup k = none := by
    intro hm
    exact hmissed (hm.snoc (fun _ => nofun) nofun)
  rw [h.merges base k hbase hbefore]
  have hcopy : edited (at_keys copy) es k = none := (h.values k).symm.trans hk
  by_cases htouch : ∃ e ∈ es, e.touches k = true
  · rw [edited_touched htouch (at_keys base) (at_keys copy), hcopy]
  have hnone : ∀ e ∈ es, e.touches k = false := by
    intro e he
    exact Bool.eq_false_iff.mpr fun hek => htouch ⟨e, he, hek⟩
  rw [edited_untouched hnone] at hcopy ⊢
  apply hmissed
  refine ⟨hcopy, mem_append_right _ mem_cons_self, ?_, ?_⟩
  · intro value hmem
    rcases mem_append.mp hmem with hmem | hmem
    · have htouches := hnone _ hmem
      simp [Edit.touches] at htouches
    · exact absurd (mem_singleton.mp hmem) nofun
  · intro hmem
    rcases mem_append.mp hmem with hmem | hmem
    · have htouches := hnone _ hmem
      simp [Edit.touches] at htouches
    · exact absurd (mem_singleton.mp hmem) nofun

theorem Follows.remove (h : Follows st es copy) (k : Bytes) : Follows (st.remove k) (es ++ [.delete k]) copy := by
  have hbefore : ∀ {base : Values} {key : Bytes}, (Missed copy (es ++ [.delete k]) key →
      base.lookup key = none) → Missed copy es key → base.lookup key = none := by
    intro base key hmissed hm
    exact hmissed (hm.snoc (fun _ => nofun) nofun)
  unfold State.remove
  split
  · next hlacks =>
    refine ⟨?_, ?_, h.anonymous⟩
    · intro key
      rw [edited_append, edited_one]
      by_cases hk : key = k
      · subst hk
        exact hlacks.trans (Entries.clear_self _ _).symm
      · exact (h.values key).trans (Entries.clear_ne hk).symm
    · intro base key hbase hmissed
      rw [edited_append, edited_one]
      by_cases hk : key = k
      · subst hk
        exact (h.lacks hlacks hbase hmissed).trans (Entries.clear_self _ _).symm
      · exact (h.merges base key hbase (hbefore hmissed)).trans (Entries.clear_ne hk).symm
  · refine ⟨?_, ?_, h.anonymous⟩
    · intro key
      rw [edited_append, edited_one]
      by_cases hk : key = k
      · subst hk
        exact (AList.lookup_erase _ _).trans (Entries.clear_self _ _).symm
      · exact (AList.lookup_erase_ne hk).trans ((h.values key).trans (Entries.clear_ne hk).symm)
    · intro base key hbase hmissed
      rw [edited_append, edited_one]
      refine (lookup_apply_remove base st.changes k key).trans ?_
      by_cases hk : key = k
      · subst hk
        rw [if_pos rfl]
        exact (Entries.clear_self _ _).symm
      · rw [if_neg hk, h.merges base key hbase (hbefore hmissed)]
        exact (Entries.clear_ne hk).symm

theorem Follows.clear (h : Follows st es copy) : Follows st.clear (es ++ [.clear]) copy := by
  unfold State.clear
  split
  · next hempty =>
    have hvalues : st.data.values = ∅ := Table.isEmpty_iff.mp hempty.1
    refine ⟨?_, ?_, h.anonymous⟩
    · intro key
      rw [edited_append, edited_one, hvalues]
      exact AList.lookup_empty key
    · intro base key hbase _
      -- a session that is not there holds nothing, as the copy does
      have hsame : base = copy := (hbase hempty.2).trans (h.anonymous hempty.2).symm
      have hnone : base.lookup key = none := by
        rw [hbase hempty.2]
        exact AList.lookup_empty key
      rw [edited_append, edited_one, h.merges base key hbase fun _ => hnone, hsame, ← h.values key, hvalues]
      exact AList.lookup_empty key
  · refine ⟨?_, ?_, h.anonymous⟩
    · intro key
      rw [edited_append, edited_one]
      exact AList.lookup_empty key
    · intro base key _ _
      rw [edited_append, edited_one, lookup_apply, if_neg not_mem_nil, if_pos rfl]
      exact congrArg (Option.or · none) (AList.lookup_empty key)

end

end Cosmic.Session

/-!
Requests on the sessions of one table, whose steps come in any order.

A step is a call of a request's handle or one query of the store: none of them yields. What a
request did, what it had loaded and which ids were made are kept beside, to say what a save is to
store.
-/

namespace Cosmic.Session

open Cosmic.Base
open Cosmic.Base.Raise

/-! ## Requests -/

/-- Where a request is: the handler runs, the middleware builds the response of a status, or it is
done. -/
inductive Phase where
  | handling
  | closing (status : ℕ)
  | ended

structure Request where
  phase : Phase
  st : State
  /-- What the request did to the session it has. -/
  acts : List Act
  /-- The values it loaded. -/
  copy : Values

def Request.start (sent : Option Bytes) (rolling : Bool) (max_age now : ℤ) : Request :=
  ⟨.handling, State.start sent rolling max_age now, [], ∅⟩

/-- The call leaves an empty anonymous session, to which nothing was done. -/
def Op.resets : Op → Bool
  | .invalidate => true
  | _ => false

def Request.call (json : Json) (load : Bytes → ℤ → Except Bytes (Option Data)) (r : Request) (op : Op) : Request :=
  match exec json load op r.st with
  | .ok _ st =>
    if op.resets then { r with st, acts := [], copy := ∅ }
    else
      let first := ensured load r.st
      { r with
        st
        acts := r.acts ++ op.acts first
        copy := if r.st.loaded then r.copy else first.data.values }
  | .raised _ st => { r with st, copy := if r.st.loaded then r.copy else st.data.values }

/-- The middleware saves the session now. -/
def Request.saves (r : Request) : Bool :=
  match r.phase with
  | .closing status => r.st.doomed.isEmpty && status < 500 && r.st.rolled.dirty
  | _ => false

/-! ## The system -/

structure Sys where
  rows : Rows
  /-- The hashes of the ids made so far. -/
  hashes : List Bytes
  requests : List Request

inductive Event where
  /-- A request comes, with the token in its cookie. -/
  | start (sent : Option Bytes) (rolling : Bool) (max_age now : ℤ)
  /-- A call of the handle; where it loads, the database may fail. -/
  | call (i : ℕ) (op : Op) (failure : Option Bytes)
  /-- The handler answered. -/
  | respond (i : ℕ) (status : ℕ)
  /-- The middleware revokes the next of the tokens the request is to revoke. -/
  | revoke (i : ℕ)
  /-- The middleware saves, with a new id at hand. -/
  | save (i : ℕ) (id : Bytes)
  /-- The request ends with no more done, or by an error. -/
  | leave (i : ℕ)
  | destroy_subject (subject : Bytes)
  | sweep (now : ℤ) (keys : List Bytes)

section

variable (o : Outside)

def loads (rows : Rows) (failure : Option Bytes) (token : Bytes) (now : ℤ) : Except Bytes (Option Data) :=
  match failure with
  | some why => .error why
  | none => .ok (load_session o rows token now)

/-- One step; none where it cannot be. A new id is one that no id made before is like. -/
def Sys.step (s : Sys) : Event → Option Sys
  | .start sent rolling max_age now =>
    some { s with requests := s.requests ++ [Request.start sent rolling max_age now] }
  | .call i op failure => do
      let r ← s.requests[i]?
      return { s with requests := s.requests.set i (r.call o.json (loads o s.rows failure) op) }
  | .respond i status => do
      let r ← s.requests[i]?
      match r.phase with
      | .handling =>
        let phase := if r.st.accessed then .closing status else .ended
        return { s with
          requests := s.requests.set i { r with phase, st := { r.st with frozen := true } } }
      | _ => none
  | .revoke i => do
      let r ← s.requests[i]?
      match r.phase, r.st.doomed with
      | .closing _, token :: doomed =>
        return { s with
          rows := destroy_session o s.rows token
          requests := s.requests.set i { r with st := { r.st with doomed } } }
      | _, _ => none
  | .save i id => do
      let r ← s.requests[i]?
      let st := r.st.rolled
      if r.saves ∧ is_id o id ∧ o.sha256 id ∉ s.hashes then
        match save_session o s.rows st.token st.data st.changes st.now id with
        | .ok (_, rows) =>
          return ⟨rows, o.sha256 id :: s.hashes, s.requests.set i { r with phase := .ended, st }⟩
        | .error _ => none
      else none
  | .leave i => do
      let r ← s.requests[i]?
      return { s with requests := s.requests.set i { r with phase := .ended } }
  | .destroy_subject subject => some { s with rows := destroy_subject s.rows subject }
  | .sweep now keys => some { s with rows := delete_expired s.rows now keys }

/-! ## What a save is to store -/

/-- The row of the session that the request has, if it is still there. -/
def Sys.row_of (s : Sys) (r : Request) : Option Row :=
  if r.st.valid then s.rows.lookup (o.sha256 r.st.token) else none

def stored (row : Option Row) : Values := (row.bind fun row => values_of o row.data).getD ∅

/-- What the save of `r` is to leave in the table. -/
structure Saved (s s' : Sys) (r : Request) (token : Bytes) (row : Row) (values : Values) : Prop where
  kept : s'.rows.lookup (o.sha256 token) = some row
  reads : values_of o row.data = some values
  /-- What was stored, with what the request did done to it in its order. -/
  merged : ∀ key, values.lookup key = edited (at_keys (stored o (s.row_of o r))) (edits r.acts) key
  untouched : ∀ key, (∀ e ∈ edits r.acts, e.touches key = false) →
    values.lookup key = (stored o (s.row_of o r)).lookup key
  subject : row.subject = (bound r.acts).or ((s.row_of o r).bind Row.subject)
  later : ∀ old, s.row_of o r = some old → old.expires ≤ row.expires
  same_id : (s.row_of o r).isSome = true → .regenerate ∉ r.acts → token = r.st.token
  /-- A session that was revoked, or is to take a new id, is under an id that is new. -/
  new_id : s.row_of o r = none ∨ .regenerate ∈ r.acts → o.sha256 token ∉ s.hashes
  gone : r.st.valid = true → s.row_of o r = none ∨ .regenerate ∈ r.acts → s'.rows.lookup (o.sha256 r.st.token) = none
  /-- The CSRF secret is what the request made of it after it regenerated the session. -/
  csrf : ∀ later, since_regenerate r.acts = some later →
    values.lookup CSRF_KEY = edited Entries.none_entered (edits later) CSRF_KEY
  others : ∀ key, key ≠ o.sha256 token → (r.st.valid = true → key ≠ o.sha256 r.st.token) →
    s'.rows.lookup key = s.rows.lookup key

/-- Where a request may save and what is stored is what it is to be: each key that it deleted while
its copy lacked it is not stored, and the row does not expire later than the copy does. -/
structure Meets (s : Sys) (r : Request) : Prop where
  missed : ∀ key, Missed r.copy (edits r.acts) key → (stored o (s.row_of o r)).lookup key = none
  expires : ∀ row, s.row_of o r = some row → row.expires ≤ r.st.rolled.data.expires

/-- The states that runs reach in which every save meets the condition, from an empty table. -/
inductive Reached : Sys → Prop
  | start : Reached ⟨∅, [], []⟩
  | step {s s' : Sys} {e : Event} (h : Reached s) (hstep : s.step o e = some s')
      (hmeets : ∀ i id r, e = .save i id → s.requests[i]? = some r → Meets o s r) : Reached s'

def ReadsBack : Prop :=
  ∀ (values : Values) (text : Bytes), o.json.encode (.object (members_of values)) (some MAX_DEPTH) = .ok text →
      ∃ values', values_of o text = some values' ∧ ∀ key, values'.lookup key = values.lookup key

end

end Cosmic.Session
