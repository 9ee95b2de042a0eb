/-
What a save leaves in the table, in any run whose saves meet the condition.
-/
import Cosmic.Web.SessionTold
import Mathlib.Data.List.Induction

set_option autoImplicit false

namespace Cosmic.Session

open Cosmic.Base List
open Cosmic.Base.Raise

variable {o : Outside}

/-! ## The CSRF secret -/

theorem since_regenerate_split {acts later : List Act} (h : since_regenerate acts = some later) :
    ∃ front, acts = front ++ .regenerate :: later := by
  induction acts with
  | nil => exact absurd h nofun
  | cons a acts ih =>
    unfold since_regenerate at h
    cases hrest : since_regenerate acts with
    | some rest =>
      rw [hrest] at h
      cases h
      obtain ⟨front, hfront⟩ := ih hrest
      exact ⟨a :: front, by rw [hfront]; rfl⟩
    | none =>
      rw [hrest] at h
      cases a with
      | regenerate =>
        cases h
        exact ⟨[], rfl⟩
      | _ => exact absurd h nofun

theorem edited_since {acts later : List Act} (h : since_regenerate acts = some later) (t : Entries Bytes Value) :
    edited t (edits acts) CSRF_KEY = edited Entries.none_entered (edits later) CSRF_KEY := by
  obtain ⟨front, rfl⟩ := since_regenerate_split h
  have hsplit : edits (front ++ .regenerate :: later) = (edits front ++ [.delete CSRF_KEY]) ++ edits later := by
    rw [edits, flatMap_append, flatMap_cons, ← edits, ← edits, append_assoc]
    rfl
  rw [hsplit, edited_append]
  refine edited_congr ?_ (edits later)
  rw [edited_append, edited_one]
  exact Entries.clear_self _ _

/-! ## A save -/

/-- What a save that answers leaves: the text of what was stored with the changes applied, in the row
or in a new one. -/
inductive Stores (o : Outside) (rows : Rows) (previous : Bytes) (data : Data) (changes : Changes)
    (now : ℤ) (id : Bytes) (text : Bytes) : Option Row → Bytes → Rows → Prop
  | row {row : Row} (h : changes.regenerated = false) :
      Stores o rows previous data changes now id text (some row) previous (rows.insert (o.sha256 previous) { row with
            data := text
            subject := changes.subject.or row.subject
            touched := now
            expires := data.expires })
  | fresh {row : Option Row} (h : row = none ∨ changes.regenerated = true) :
      Stores o rows previous data changes now id text row id
        ((if row.isSome then rows.erase (o.sha256 previous) else rows).insert (o.sha256 id)
          ⟨text, changes.subject.or (row.bind Row.subject), data.created, now, data.expires⟩)

variable {token id : Bytes}

theorem save_stores {rows rows' : Rows} {previous : Bytes} {data : Data} {changes : Changes} {now : ℤ}
    (h : save_session o rows previous data changes now id = .ok (token, rows')) :
    ∃ text, o.json.encode (.object (members_of (apply (stored o (find o rows previous now)) changes)))
        (some MAX_DEPTH) = .ok text ∧
      Stores o rows previous data changes now id text (find o rows previous now) token rows' := by
  unfold save_session at h
  simp only at h
  split at h
  · cases h
  next text htext =>
  refine ⟨text, htext, ?_⟩
  have hfresh : ∀ {row : Option Row} {rows₁ : Rows} {new : Row}, row = none ∨ changes.regenerated = true →
      rows₁ = (if row.isSome then rows.erase (o.sha256 previous) else rows) →
      new = ⟨text, changes.subject.or (row.bind Row.subject), data.created, now, data.expires⟩ →
      (if o.sha256 id ∈ rows₁ then .error (lit "sessions: UNIQUE constraint failed")
        else .ok (id, rows₁.insert (o.sha256 id) new) : Except Bytes (Bytes × Rows)) = .ok (token, rows') →
      Stores o rows previous data changes now id text row token rows' := by
    intro row rows₁ new hrow hrows hnew h
    by_cases hin : o.sha256 id ∈ rows₁
    · rw [if_pos hin] at h
      cases h
    · rw [if_neg hin] at h
      cases h
      subst hrows hnew
      exact .fresh hrow
  cases hrow : find o rows previous now with
  | none =>
    rw [hrow] at h
    exact hfresh (.inl rfl) rfl rfl h
  | some row =>
    rw [hrow] at h
    cases hregenerated : changes.regenerated with
    | true =>
      rw [hregenerated] at h
      exact hfresh (.inr hregenerated) rfl rfl h
    | false =>
      rw [hregenerated] at h
      cases h
      exact .row hregenerated

variable {s : Sys} {r : Request}

theorem find_row_of (htold : Told r.st r.acts r.copy) (hknown : r.st.valid = true → Known o s r.st) :
    find o s.rows r.st.token r.st.now = s.row_of o r := by
  unfold Sys.row_of find
  cases hvalid : r.st.valid with
  | true =>
    obtain ⟨hid, -, hlives⟩ := hknown hvalid
    rw [if_pos hid, if_pos rfl]
    cases hrow : s.rows.lookup (o.sha256 r.st.token) with
    | none => rfl
    | some row => exact Option.filter_eq_some_iff.mpr ⟨rfl, decide_eq_true (hlives row hrow)⟩
  | false =>
    rw [htold.anonymous hvalid, if_neg Bool.false_ne_true]
    exact if_neg fun hid => absurd (Bool.and_eq_true_iff.mp hid).1 (by simp [ID_CHARS])

theorem State.rolled_flags (st : State) : st.rolled.token = st.token ∧ st.rolled.valid = st.valid ∧
    st.rolled.now = st.now ∧ st.rolled.changes = st.changes := by
  unfold State.rolled
  split
  · exact ⟨rfl, rfl, rfl, rfl⟩
  · exact ⟨rfl, rfl, rfl, rfl⟩

theorem Sound.saves {s : Sys} (h : Sound o s) (hread : ReadsBack o) {r : Request} (hr : r ∈ s.requests)
    (hmeets : Meets o s r) {id : Bytes} (hnew : o.sha256 id ∉ s.hashes) {token : Bytes} {s' : Sys}
    (hsave : save_session o s.rows r.st.token r.st.rolled.data r.st.changes r.st.now id =
      .ok (token, s'.rows)) : (token = r.st.token ∧ r.st.valid = true ∨ token = id) ∧
    ∃ row values, Saved o s s' r token row values := by
  have htold := h.told r hr
  have hfind := find_row_of htold (h.known r hr)
  obtain ⟨text, htext, hstores⟩ := save_stores hsave
  rw [hfind] at htext hstores
  obtain ⟨values, hvalues, hsame⟩ := hread _ _ htext
  have hmerged : ∀ key, values.lookup key = edited (at_keys (stored o (s.row_of o r))) (edits r.acts) key := by
    intro key
    rw [hsame key]
    refine htold.follows.merges _ key ?_ (hmeets.missed key)
    intro hvalid
    rw [Sys.row_of, hvalid]
    rfl
  have huntouched : ∀ key, (∀ e ∈ edits r.acts, e.touches key = false) →
      values.lookup key = (stored o (s.row_of o r)).lookup key := by
    intro key hnone
    rw [hmerged key, edited_untouched hnone]
    rfl
  have hcsrf : ∀ later, since_regenerate r.acts = some later →
      values.lookup CSRF_KEY = edited Entries.none_entered (edits later) CSRF_KEY := by
    intro later hlater
    rw [hmerged CSRF_KEY, edited_since hlater]
  have hthere : ∀ row, s.row_of o r = some row → r.st.valid = true := by
    intro row hrow
    cases hvalid : r.st.valid with
    | true => rfl
    | false =>
      rw [Sys.row_of, hvalid] at hrow
      cases hrow
  generalize hrows : s'.rows = rows' at hstores
  generalize hbefore : s.row_of o r = before at hstores
  cases hstores with
  | @row old hregenerated =>
    have hstays : ¬(s.row_of o r = none ∨ .regenerate ∈ r.acts) := by
      rintro (hnone | hmem)
      · rw [hbefore] at hnone
        cases hnone
      · rw [htold.regenerated.mpr hmem] at hregenerated
        cases hregenerated
    refine ⟨.inl ⟨rfl, hthere old hbefore⟩, { old with
        data := text
        subject := r.st.changes.subject.or old.subject
        touched := r.st.now
        expires := r.st.rolled.data.expires }, values, ?_, hvalues, hmerged, huntouched, ?_, ?_,
      fun _ _ => rfl, fun hnew => absurd hnew hstays, fun _ hnew => absurd hnew hstays, hcsrf, ?_⟩
    · rw [hrows]
      exact AList.lookup_insert _
    · rw [hbefore, ← htold.subject]
      rfl
    · intro row hrow
      exact hmeets.expires row hrow
    · intro key hkey _
      rw [hrows]
      exact AList.lookup_insert_ne hkey
  | fresh hnone =>
    have hstale : ∀ key, key ≠ o.sha256 id → (r.st.valid = true → key ≠ o.sha256 r.st.token) →
        s'.rows.lookup key = s.rows.lookup key := by
      intro key hkey hnot
      rw [hrows, AList.lookup_insert_ne hkey]
      split
      · next hsome =>
        obtain ⟨row, hrow⟩ := Option.isSome_iff_exists.mp hsome
        exact AList.lookup_erase_ne (hnot (hthere row (hbefore.trans hrow)))
      · rfl
    refine ⟨.inr rfl, ⟨text, r.st.changes.subject.or (before.bind Row.subject), r.st.rolled.data.created, r.st.now,
        r.st.rolled.data.expires⟩, values, ?_, hvalues, hmerged, huntouched, ?_, ?_, ?_, fun _ => hnew, ?_,
      hcsrf, hstale⟩
    · rw [hrows]
      exact AList.lookup_insert _
    · rw [hbefore, ← htold.subject]
    · intro row hrow
      exact hmeets.expires row hrow
    · intro hsome hnot
      rcases hnone with rfl | hregenerated
      · rw [hbefore] at hsome
        cases hsome
      · exact absurd (htold.regenerated.mp hregenerated) hnot
    · intro hvalid _
      have htoken : o.sha256 r.st.token ≠ o.sha256 id := by
        intro heq
        exact hnew (heq ▸ (h.known r hr hvalid).made)
      rw [hrows, AList.lookup_insert_ne htoken]
      split
      · exact AList.lookup_erase _ _
      · next hsome =>
        have hlost : s.row_of o r = none := hbefore.trans (Option.not_isSome_iff_eq_none.mp hsome)
        rwa [Sys.row_of, if_pos hvalid] at hlost

/-! ## Runs -/

variable {s' : Sys} {row : Row} {values : Values}

theorem Saved.elsewhere {row' : Row} (hsaved : Saved o s s' r token row values) {key : Bytes}
    (hk : key ≠ o.sha256 token) (hrow : s'.rows.lookup key = some row') : s.rows.lookup key = some row' := by
  rw [← hrow]
  refine (hsaved.others key hk fun hvalid heq => ?_).symm
  -- the session's row is gone where the token it is under now is another
  by_cases hnew : s.row_of o r = none ∨ .regenerate ∈ r.acts
  · rw [heq, hsaved.gone hvalid hnew] at hrow
    cases hrow
  · obtain ⟨hsome, hnot⟩ := not_or.mp hnew
    have htoken := hsaved.same_id (Option.isSome_iff_ne_none.mpr hsome) hnot
    exact hk (heq.trans (congrArg o.sha256 htoken.symm))

theorem Saved.grows (hsaved : Saved o s s' r token row values) (hhashes : s'.hashes = o.sha256 id :: s.hashes) :
    Grows s s'.rows s'.hashes where
  made := by
    intro key hkey
    rw [hhashes]
    exact mem_cons_of_mem _ hkey
  rows := by
    intro key hkey row' hrow'
    have hstays : key = o.sha256 token → s.row_of o r ≠ none ∧ .regenerate ∉ r.acts := by
      rintro rfl
      exact ⟨fun hnone => hsaved.new_id (.inl hnone) hkey, fun hmem => hsaved.new_id (.inr hmem) hkey⟩
    by_cases hk : key = o.sha256 token
    · obtain ⟨hsome, hnot⟩ := hstays hk
      obtain ⟨old, hold⟩ := Option.ne_none_iff_exists'.mp hsome
      have htoken : token = r.st.token := hsaved.same_id (by rw [hold]; rfl) hnot
      have hle := hsaved.later old hold
      subst hk
      obtain rfl := Option.some.inj (hsaved.kept.symm.trans hrow')
      unfold Sys.row_of at hold
      split at hold
      · exact ⟨old, by rw [htoken]; exact hold, hle⟩
      · cases hold
    · exact ⟨row', hsaved.elsewhere hk hrow', le_rfl⟩

variable {i : ℕ}

theorem Saved.sound (h : Sound o s) (hr : r ∈ s.requests) (hsaved : Saved o s s' r token row values)
    (hhashes : s'.hashes = o.sha256 id :: s.hashes) (htoken : token = r.st.token ∧ r.st.valid = true ∨ token = id)
    (hrequests : s'.requests = s.requests.set i { r with phase := .ended, st := r.st.rolled }) :
    Sound o s' := by
  have hgrows := hsaved.grows hhashes
  have hknown : ∀ {st : State}, Known o s st → Known o s' st := fun hst => hst.grows hgrows s'.requests
  obtain ⟨hsame, hvalid, hnow, -⟩ := r.st.rolled_flags
  refine ⟨?_, ?_, ?_, ?_⟩
  · intro q hq
    rw [hrequests] at hq
    rcases mem_or_eq_of_mem_set hq with hq | rfl
    · exact h.told q hq
    · exact (h.told r hr).rolled
  · intro q hq hyes
    rw [hrequests] at hq
    rcases mem_or_eq_of_mem_set hq with hq | rfl
    · exact hknown (h.known q hq hyes)
    have hold := hknown (h.known r hr (hvalid.symm.trans hyes))
    refine ⟨?_, ?_, ?_⟩
    · rw [hsame]
      exact hold.is_id
    · rw [hsame]
      exact hold.made
    · rw [hsame, hnow]
      exact hold.lives
  · intro key hkey
    by_cases hk : key = o.sha256 token
    · rw [hk]
      rcases htoken with ⟨rfl, hyes⟩ | rfl
      · exact (hknown (h.known r hr hyes)).made
      · rw [hhashes]
        exact mem_cons_self
    · obtain ⟨row', hrow'⟩ := Option.isSome_iff_exists.mp (AList.lookup_isSome.mpr hkey)
      have hbefore := hsaved.elsewhere hk hrow'
      exact hgrows.made key (h.made key (AList.lookup_isSome.mp (by rw [hbefore]; rfl)))
  · intro key row' hrow'
    by_cases hk : key = o.sha256 token
    · subst hk
      obtain rfl := Option.some.inj (hsaved.kept.symm.trans hrow')
      exact ⟨values, hsaved.reads⟩
    · exact h.reads key row' (hsaved.elsewhere hk hrow')

theorem sound_start : Sound o ⟨∅, [], []⟩ where
  told := fun _ hr => absurd hr not_mem_nil
  known := fun _ hr => absurd hr not_mem_nil
  made := fun key hkey => absurd hkey (AList.notMem_empty key)
  reads := by
    intro key row hrow
    cases hrow

theorem step_save (h : s.step o (.save i id) = some s') :
    ∃ r token, s.requests[i]? = some r ∧ r.saves = true ∧ o.sha256 id ∉ s.hashes ∧
      save_session o s.rows r.st.token r.st.rolled.data r.st.changes r.st.now id = .ok (token, s'.rows) ∧
      s'.hashes = o.sha256 id :: s.hashes ∧
      s'.requests = s.requests.set i { r with phase := .ended, st := r.st.rolled } := by
  obtain ⟨r, hr, h⟩ := Option.bind_eq_some_iff.mp h
  simp only at h
  obtain ⟨htoken, -, hnow, hchanges⟩ := r.st.rolled_flags
  rw [htoken, hnow, hchanges] at h
  split at h
  · next hguard =>
    split at h
    · next token rows hsave =>
      cases h
      exact ⟨r, token, hr, hguard.1, hguard.2.2, hsave, rfl, rfl⟩
    · cases h
  · cases h

theorem Sound.flags (h : Sound o s) {rows : Rows} (hthin : Thins s.rows rows) (i : ℕ) (hr : r ∈ s.requests)
    {phase : Phase} {frozen : Bool} {doomed : List Bytes} :
    Sound o ⟨rows, s.hashes, s.requests.set i { r with phase, st := { r.st with frozen, doomed } }⟩ := by
  have htold := h.told r hr
  refine h.request hthin i ?_ fun hvalid => ?_
  · exact ⟨⟨htold.follows.values, htold.follows.merges, htold.follows.anonymous⟩, htold.regenerated,
      htold.subject, htold.unloaded, htold.anonymous⟩
  · have hknown := h.known r hr hvalid
    exact ⟨hknown.is_id, hknown.made, hknown.lives⟩

theorem Sound.others (h : Sound o s) {e : Event} (hstep : s.step o e = some s') (he : ∀ i id, e ≠ .save i id) :
    Sound o s' ∧ Thins s.rows s'.rows := by
  have hsame : Thins s.rows s.rows := fun _ => .inl rfl
  cases e with
  | save i id => exact absurd rfl (he i id)
  | start sent rolling max_age now =>
    cases hstep
    exact ⟨h.start sent rolling max_age now, hsame⟩
  | call i op failure =>
    obtain ⟨r, hr, hstep⟩ := Option.bind_eq_some_iff.mp hstep
    cases hstep
    exact ⟨h.call hr op failure, hsame⟩
  | respond i status =>
    obtain ⟨r, hr, hstep⟩ := Option.bind_eq_some_iff.mp hstep
    split at hstep
    · cases hstep
      exact ⟨h.flags hsame i (mem_of_getElem? hr), hsame⟩
    · cases hstep
  | revoke i =>
    obtain ⟨r, hr, hstep⟩ := Option.bind_eq_some_iff.mp hstep
    split at hstep
    · next token doomed _ _ =>
      cases hstep
      exact ⟨h.flags (thins_destroy s.rows token) i (mem_of_getElem? hr), thins_destroy s.rows token⟩
    · cases hstep
  | leave i =>
    obtain ⟨r, hr, hstep⟩ := Option.bind_eq_some_iff.mp hstep
    have hmem := mem_of_getElem? hr
    cases hstep
    exact ⟨h.request hsame i (h.told r hmem) (h.known r hmem), hsame⟩
  | destroy_subject subject =>
    cases hstep
    have hthin := thins_eraseAll s.rows
      (s.rows.keys.filter fun key => (s.rows.lookup key).any (·.subject = some subject))
    exact ⟨h.thins hthin, hthin⟩
  | sweep now keys =>
    cases hstep
    have hthin := thins_eraseAll s.rows (keys.filter fun key => (s.rows.lookup key).any (·.expires ≤ now))
    exact ⟨h.thins hthin, hthin⟩

theorem Reached.sound (hread : ReadsBack o) (h : Reached o s) : Sound o s := by
  induction h with
  | start => exact sound_start
  | @step s s' e _ hstep hmeets ih =>
    cases e with
    | save i id =>
      obtain ⟨r, token, hr, -, hnew, hsave, hhashes, hrequests⟩ := step_save hstep
      have hmem := mem_of_getElem? hr
      obtain ⟨htoken, row, values, hsaved⟩ := ih.saves hread hmem (hmeets i id r rfl hr) hnew hsave
      exact hsaved.sound ih hmem hhashes htoken hrequests
    | _ => exact (ih.others hstep nofun).1

/-- Requests that share a session lose no change of each other: in any run whose saves meet the
condition, each save that meets it does to what is stored what its request did, and no other step
puts anything in the table. -/
theorem saves_merge (hread : ReadsBack o) {s s' : Sys} (h : Reached o s) {e : Event} (hstep : s.step o e = some s') :
    (∀ i id, e = .save i id → ∃ r, s.requests[i]? = some r ∧
      (Meets o s r → ∃ token row values, Saved o s s' r token row values)) ∧
    ((∀ i id, e ≠ .save i id) → ∀ key, s'.rows.lookup key = s.rows.lookup key ∨ s'.rows.lookup key = none) := by
  have hsound := h.sound hread
  refine ⟨?_, fun he => (hsound.others hstep he).2⟩
  rintro i id rfl
  obtain ⟨r, token, hr, -, hnew, hsave, -, -⟩ := step_save hstep
  refine ⟨r, hr, fun hmeets => ?_⟩
  obtain ⟨-, row, values, hsaved⟩ := hsound.saves hread (mem_of_getElem? hr) hmeets hnew hsave
  exact ⟨token, row, values, hsaved⟩

/-! ## Requests of one session -/

def after (o : Outside) (events : List Event) : Option Sys := events.foldlM (Sys.step o) ⟨∅, [], []⟩

variable {events : List Event}

theorem after_snoc {e : Event} (h : after o (events ++ [e]) = some s') :
    ∃ s, after o events = some s ∧ s.step o e = some s' := by
  unfold after at h
  rw [foldlM_append] at h
  obtain ⟨s, hs, hstep⟩ := Option.bind_eq_some_iff.mp h
  simp only [foldlM_cons, foldlM_nil, bind_pure] at hstep
  exact ⟨s, hs, hstep⟩

/-- A request that only set keys, and whose copy does not expire before the row does, meets the
condition. -/
def only_sets (o : Outside) (s : Sys) (r : Request) : Bool :=
  ((edits r.acts).all fun e => match e with
    | .set _ _ => true
    | _ => false) &&
  (s.row_of o r).all fun row => row.expires ≤ r.st.rolled.data.expires

theorem meets_of_only_sets (h : only_sets o s r = true) : Meets o s r := by
  obtain ⟨hsets, hexpires⟩ := Bool.and_eq_true_iff.mp h
  refine ⟨fun key hmissed => ?_, fun row hrow => ?_⟩
  · exact absurd (all_eq_true.mp hsets _ hmissed.deleted) nofun
  · rw [hrow] at hexpires
    exact of_decide_eq_true hexpires

/-- Every save among the events is of a request that only set keys. -/
def sets_throughout (o : Outside) : Sys → List Event → Bool
  | _, [] => true
  | s, e :: events =>
    (match e with
      | .save i _ => (s.requests[i]?).all (only_sets o s)
      | _ => true) && (s.step o e).all fun s' => sets_throughout o s' events

theorem Reached.run (h : Reached o s) (hsets : sets_throughout o s events = true)
    (hrun : events.foldlM (Sys.step o) s = some s') :
    Reached o s' := by
  induction events generalizing s with
  | nil =>
    cases hrun
    exact h
  | cons e events ih =>
    obtain ⟨s₁, hstep, hrun⟩ := Option.bind_eq_some_iff.mp hrun
    obtain ⟨hsave, hrest⟩ := Bool.and_eq_true_iff.mp hsets
    rw [hstep] at hrest
    refine ih (h.step hstep ?_) hrest hrun
    rintro i id r rfl hr
    simp only [hr] at hsave
    exact meets_of_only_sets hsave

def strings (members : List (Bytes × Value)) : Option (List (Bytes × Bytes)) :=
  members.mapM fun m => match m.2 with
    | .string s => some (m.1, s)
    | _ => none

/-- The tables of a few strings, and their texts. -/
def texts : List (List (Bytes × Bytes) × Bytes) :=
  [([(lit "a", lit "1")], lit "\x7b\"a\":\"1\"\x7d"), ([(lit "a", lit "2")], lit "\x7b\"a\":\"2\"\x7d"),
    ([(lit "a", lit "1"), (lit "b", lit "1")], lit "\x7b\"a\":\"1\",\"b\":\"1\"\x7d"),
    ([(lit "a", lit "2"), (lit "b", lit "1")], lit "\x7b\"a\":\"2\",\"b\":\"1\"\x7d"),
    ([(lit "_csrf", lit "1"), (lit "a", lit "1")], lit "\x7b\"_csrf\":\"1\",\"a\":\"1\"\x7d")]

/-- `Json`, of strings and of those tables. -/
def texts_json : Json where
  encode
    | .string s, _ => .ok (34 :: s ++ [34])
    | .object members, _ =>
      match (strings members).bind fun pairs => texts.find? fun t => t.1.isPerm pairs with
      | some t => .ok t.2
      | none => .error (lit "another value")
    | _, _ => .error (lit "another value")
  decode_object text _ :=
    match texts.find? fun t => t.2 = text with
    | some t => .ok (t.1.map fun m => (m.1, .string m.2))
    | none => .error (lit "another text")

/-- The id of as many zero bytes as there are, but for the last of its characters. -/
def an_id (last : UInt8) : Bytes := List.replicate 42 65 ++ [last]

def digest (n : ℕ) : Bytes := (List.range 32).map fun i => UInt8.ofNat (n / 256 ^ (31 - i) % 256)

def few : Outside where
  json := texts_json
  sha256 token :=
    if token = an_id 65 then
      digest 0x0f007385b6f9d4b7eeb2748605afe1a984a0a3bfa3f014d09e2a784ce9e5cd1a
    else if token = an_id 69 then
      digest 0x1aeb305eae63ed6eac9ab26d46ef146ad48f5ae59c608cd41115ec4b19b5cd72
    else if token = an_id 73 then
      digest 0x98a99ea1ce6c337d53de5931390c0c9185896bc9d66a451c1f084b2c1fd30ee1
    else token
  unbase64url token :=
    if token = an_id 65 then some (digest 0)
    else if token = an_id 69 then some (digest 1)
    else if token = an_id 73 then some (digest 2)
    else none

/-- Two requests load the session that a third began, and the first of them sets `a`. -/
def shared : List Event :=
  [.start none false 1000 0, .call 0 (.set (lit "a") (some (.string (lit "1")))) none, .respond 0 200,
    .save 0 (an_id 65),
    .start (some (an_id 65)) false 1000 10, .start (some (an_id 65)) false 1000 10,
    .call 1 (.set (lit "a") (some (.string (lit "2")))) none,
    .call 2 (.set (lit "b") (some (.string (lit "1")))) none,
    .respond 1 200, .save 1 (an_id 69), .respond 2 200]

theorem spells {members : List (Bytes × Value)} {pairs : List (Bytes × Bytes)}
    (h : strings members = some pairs) : members = pairs.map fun m => (m.1, .string m.2) := by
  induction members generalizing pairs with
  | nil =>
    cases h
    rfl
  | cons m members ih =>
    unfold strings at h
    rw [mapM_cons] at h
    obtain ⟨p, hp, h⟩ := Option.bind_eq_some_iff.mp h
    obtain ⟨ps, hps, h⟩ := Option.bind_eq_some_iff.mp h
    cases h
    rw [map_cons, ← ih hps]
    obtain ⟨key, value⟩ := m
    cases value with
    | string s =>
      cases hp
      rfl
    | _ => exact absurd hp nofun

theorem lookup_table_of {members : List (Bytes × Value)} (h : members.Perm (members_of values)) (key : Bytes) :
    (table_of members).lookup key = values.lookup key := by
  let entry : Bytes × Value → Σ _ : Bytes, Value := fun m => ⟨m.1, m.2⟩
  have hentries : (members_of values).map entry = values.entries := by
    rw [members_of, map_map]
    exact map_id _
  have hperm : (members.map entry).Perm values.entries := hentries ▸ h.map entry
  have hnodup : (members.map entry).NodupKeys := (perm_nodupKeys hperm).mpr values.nodupKeys
  have htable : table_of members = (members.map entry).foldl (fun out e => out.insert e.1 e.2) ∅ := by
    rw [foldl_map]
    rfl
  rw [htable, lookup_enter_all hnodup, AList.lookup_empty, Option.or_none]
  exact perm_dlookup key hnodup hperm

theorem few_reads_back : ReadsBack few := by
  intro values text h
  dsimp only [few, texts_json] at h
  split at h
  next t hfound =>
    cases h
    obtain ⟨pairs, hpairs, hfind⟩ := Option.bind_eq_some_iff.mp hfound
    have hsame : t.1.isPerm pairs = true := by
      have hfound := find?_some hfind
      exact hfound
    have hperm : t.1.Perm pairs := isPerm_iff.mp hsame
    have hreads : texts.find? (fun t' => t'.2 = t.2) = some t := by
      have hall : ∀ t ∈ texts, texts.find? (fun t' => t'.2 = t.2) = some t := by decide +kernel
      exact hall t (mem_of_find?_eq_some hfind)
    refine ⟨table_of (t.1.map fun m => (m.1, .string m.2)), ?_, lookup_table_of ?_⟩
    · dsimp only [values_of, few, texts_json]
      rw [hreads]
    · rw [spells hpairs]
      exact hperm.map _
  next => cases h

theorem saves_merge_shared : ∃ s s', after few shared = some s ∧ s.step few (.save 2 (an_id 73)) = some s' ∧
    ∃ r, s.requests[2]? = some r ∧ edits r.acts = [.set (lit "b") (.string (lit "1"))] ∧
      ∃ token row values, Saved few s s' r token row values := by
  have hsome : (after few (shared ++ [.save 2 (an_id 73)])).isSome = true := by decide +kernel
  obtain ⟨s', hs'⟩ := Option.isSome_iff_exists.mp hsome
  obtain ⟨s, hs, hstep⟩ := after_snoc hs'
  have hreached : Reached few s := Reached.run .start (by decide +kernel) hs
  obtain ⟨r, hr, hsaved⟩ := (saves_merge few_reads_back hreached hstep).1 2 (an_id 73) rfl
  have hmeets : (after few shared).all fun s => (s.requests[2]?).all (only_sets few s) := by decide +kernel
  rw [hs] at hmeets
  simp only [Option.all_some, hr] at hmeets
  have hedits : (after few shared).map (fun s => (s.requests[2]?).map fun r => edits r.acts) =
      some (some [.set (lit "b") (.string (lit "1"))]) := rfl
  rw [hs, Option.map_some, hr] at hedits
  exact ⟨s, s', hs, hstep, r, hr, Option.some.inj (Option.some.inj hedits), hsaved (meets_of_only_sets hmeets)⟩

/-- The save that comes after the events does not leave in the table what it is to. -/
def Loses (o : Outside) (events : List Event) (i : ℕ) (id : Bytes) : Prop :=
  ∃ s s' r, after o events = some s ∧ s.step o (.save i id) = some s' ∧ s.requests[i]? = some r ∧
    ¬∃ token row values, Saved o s s' r token row values

def holds_only (text : Bytes) (expires : ℤ) (s : Sys) : Bool :=
  s.rows.entries.all fun e => e.2.data = text && e.2.expires = expires

theorem holds_only_row {text : Bytes} {expires : ℤ} (h : holds_only text expires s = true) {key : Bytes}
    (hrow : s.rows.lookup key = some row) :
    row.data = text ∧ row.expires = expires := by
  have hmem : (⟨key, row⟩ : Σ _ : Bytes, Row) ∈ s.rows.entries := AList.mem_lookup_iff.mp hrow
  have hentry := all_eq_true.mp h _ hmem
  obtain ⟨hdata, hexpires⟩ := Bool.and_eq_true_iff.mp hentry
  exact ⟨of_decide_eq_true hdata, of_decide_eq_true hexpires⟩

theorem loses_of (text : Bytes) (expires : ℤ) (f : Sys → Request → Bool)
    (hafter : (after few (events ++ [.save i id])).any (holds_only text expires) = true)
    (hbefore : (after few events).any (fun s => (s.requests[i]?).any (f s)) = true)
    (hbut : ∀ s s' r token row values, f s r = true → row.data = text → row.expires = expires → ¬Saved few s s' r token row values)
    : Loses few events i id := by
  obtain ⟨s', hs', hholds⟩ := (Option.any_eq_true _ _).mp hafter
  obtain ⟨s, hs, hstep⟩ := after_snoc hs'
  rw [hs, Option.any_some] at hbefore
  obtain ⟨r, hr, hf⟩ := (Option.any_eq_true _ _).mp hbefore
  refine ⟨s, s', r, hs, hstep, hr, ?_⟩
  rintro ⟨token, row, values, hsaved⟩
  obtain ⟨hdata, hexpires⟩ := holds_only_row hholds hsaved.kept
  exact hbut s s' r token row values hf hdata hexpires hsaved

/-- A request begins a session that holds `a`, and two more load it. -/
def begun (rolling : Bool) (now now' : ℤ) : List Event :=
  [.start none rolling 1000 0, .call 0 (.set (lit "a") (some (.string (lit "1")))) none, .respond 0 200,
    .save 0 (an_id 65),
    .start (some (an_id 65)) rolling 1000 now, .call 1 (.get (lit "a")) none,
    .start (some (an_id 65)) rolling 1000 now', .call 2 (.get (lit "a")) none]

/-- A request deletes what another set since it loaded the session. -/
def delete_unseen : List Event :=
  begun false 10 10 ++ [.call 1 (.set (lit "b") (some (.string (lit "1")))) none, .respond 1 200, .save 1 (an_id 69),
      .call 2 (.delete (lit "b")) none, .call 2 (.set (lit "a") (some (.string (lit "2")))) none,
      .respond 2 200]

/-- A request regenerates a session for which another drew a CSRF secret since it loaded it. -/
def regenerate_unseen : List Event :=
  begun false 10 10 ++ [.call 1 (.set CSRF_KEY (some (.string (lit "1")))) none, .respond 1 200, .save 1 (an_id 69),
      .call 2 .regenerate none, .respond 2 200]

/-- A request writes a session that another renewed since it loaded it. -/
def write_renewed : List Event :=
  begun true 590 600 ++ [.respond 2 200, .save 2 (an_id 69),
      .call 1 (.set (lit "a") (some (.string (lit "2")))) none, .respond 1 200]

/-- The request deleted `b`, and set another key. -/
def deletes_b (_ : Sys) (r : Request) : Bool :=
  match r.acts with
  | [.edit (.delete k), .edit (.set k' _)] => k = lit "b" && k' = lit "a"
  | _ => false

def regenerates (_ : Sys) (r : Request) : Bool :=
  match r.acts with
  | [.regenerate] => true
  | _ => false

def renewed (s : Sys) (r : Request) : Bool := (s.row_of few r).any fun row => 1000 < row.expires

theorem loses_deleted : Loses few delete_unseen 2 (an_id 73) := by
  refine loses_of (lit "\x7b\"a\":\"2\",\"b\":\"1\"\x7d") 1000 deletes_b (by decide +kernel) (by decide +kernel) ?_
  intro s s' r token row values hf hdata _ hsaved
  unfold deletes_b at hf
  split at hf
  · next k k' x hacts =>
    obtain ⟨hk, hk'⟩ := Bool.and_eq_true_iff.mp hf
    have hgone := hsaved.merged (lit "b")
    rw [hacts, of_decide_eq_true hk, of_decide_eq_true hk'] at hgone
    have hreads := hsaved.reads
    rw [hdata] at hreads
    cases hreads
    cases hgone
  · cases hf

theorem loses_secret : Loses few regenerate_unseen 2 (an_id 73) := by
  refine loses_of (lit "\x7b\"_csrf\":\"1\",\"a\":\"1\"\x7d") 1010 regenerates
    (by decide +kernel) (by decide +kernel) ?_
  intro s s' r token row values hf hdata _ hsaved
  unfold regenerates at hf
  split at hf
  · next hacts =>
    have hsecret := hsaved.csrf [] (by rw [hacts]; rfl)
    have hreads := hsaved.reads
    rw [hdata] at hreads
    cases hreads
    cases hsecret
  · cases hf

theorem loses_expiry : Loses few write_renewed 1 (an_id 73) := by
  refine loses_of (lit "\x7b\"a\":\"2\"\x7d") 1000 renewed (by decide +kernel) (by decide +kernel) ?_
  intro s s' r token row values hf _ hexpires hsaved
  obtain ⟨old, hold, hlate⟩ := (Option.any_eq_true _ _).mp hf
  have hle := hsaved.later old hold
  have hlt := of_decide_eq_true hlate
  omega

/-- A key deleted unseen stays, a secret drawn meanwhile is carried to the new id, and a session that
was renewed expires as it did before. -/
theorem saves_merge_unseen : Loses few delete_unseen 2 (an_id 73) ∧ Loses few regenerate_unseen 2 (an_id 73) ∧
    Loses few write_renewed 1 (an_id 73) :=
  ⟨loses_deleted, loses_secret, loses_expiry⟩

/-! ## The ids of sessions -/

theorem step_ids {e : Event} (hstep : s.step o e = some s') : s.hashes ⊆ s'.hashes ∧
    ∀ key ∈ s'.rows, key ∈ s.rows ∨ ∃ i id, e = .save i id ∧ key = o.sha256 id ∧ key ∉ s.hashes := by
  cases e with
  | save i id =>
    obtain ⟨r, token, -, -, hnew, hsave, hhashes, -⟩ := step_save hstep
    refine ⟨hhashes ▸ subset_cons_self _ _, fun key hkey => ?_⟩
    obtain ⟨text, -, hstores⟩ := save_stores hsave
    generalize hrow : find o s.rows r.st.token r.st.now = row at hstores
    generalize s'.rows = rows at hkey hstores
    cases hstores with
    | row _ =>
      rcases (AList.mem_insert _).mp hkey with rfl | hin
      · exact .inl (AList.lookup_isSome.mp (by rw [(find_some hrow).2.1]; rfl))
      · exact .inl hin
    | fresh _ =>
      rcases (AList.mem_insert _).mp hkey with heq | hin
      · exact .inr ⟨i, id, rfl, heq, heq ▸ hnew⟩
      · split at hin
        · exact .inl (Thins.mem (thins_erase _ _) hin)
        · exact .inl hin
  | start _ _ _ _ =>
    cases hstep
    exact ⟨.refl _, fun _ => .inl⟩
  | call _ _ _ | leave _ =>
    obtain ⟨_, -, hstep⟩ := Option.bind_eq_some_iff.mp hstep
    cases hstep
    exact ⟨.refl _, fun _ => .inl⟩
  | respond _ _ =>
    obtain ⟨_, -, hstep⟩ := Option.bind_eq_some_iff.mp hstep
    split at hstep
    · cases hstep
      exact ⟨.refl _, fun _ => .inl⟩
    · cases hstep
  | revoke _ =>
    obtain ⟨_, -, hstep⟩ := Option.bind_eq_some_iff.mp hstep
    split at hstep
    · cases hstep
      exact ⟨.refl _, fun _ hkey => .inl (Thins.mem (thins_destroy _ _) hkey)⟩
    · cases hstep
  | destroy_subject _ | sweep _ _ =>
    cases hstep
    exact ⟨.refl _, fun _ hkey => .inl (Thins.mem (thins_eraseAll _ _) hkey)⟩

/-- A session that is gone, revoked or swept, stays gone: no request that loaded it before brings it back. -/
theorem gone_stays (hmade : o.sha256 token ∈ s.hashes) (hgone : o.sha256 token ∉ s.rows)
    (hrun : events.foldlM (Sys.step o) s = some s') (now : ℤ) : load_session o s'.rows token now = none := by
  induction events generalizing s with
  | nil =>
    cases hrun
    simp [load_session, find, AList.lookup_eq_none.mpr hgone]
  | cons e events ih =>
    obtain ⟨s₁, hstep, hrun⟩ := Option.bind_eq_some_iff.mp hrun
    refine ih ((step_ids hstep).1 hmade) (fun hin => ?_) hrun
    rcases (step_ids hstep).2 _ hin with hold | ⟨i, id, -, -, hnew⟩
    · exact hgone hold
    · exact hnew hmade

def swept : List Event := shared.take 9 ++ [.sweep 2000 [few.sha256 (an_id 65)]]

theorem gone_stays_swept : ∃ s s', after few swept = some s ∧ s.step few (.save 1 (an_id 69)) = some s' ∧
    load_session few s'.rows (an_id 65) 20 = none := by
  have hsome : (after few (swept ++ [.save 1 (an_id 69)])).isSome = true := by decide +kernel
  obtain ⟨s', hs'⟩ := Option.isSome_iff_exists.mp hsome
  obtain ⟨s, hs, hstep⟩ := after_snoc hs'
  have hids : ∀ s ∈ after few swept, few.sha256 (an_id 65) ∈ s.hashes ∧ few.sha256 (an_id 65) ∉ s.rows := by decide +kernel
  obtain ⟨hmade, hgone⟩ := hids s hs
  have hrun : [.save 1 (an_id 69)].foldlM (Sys.step few) s = some s' := by simpa using hstep
  exact ⟨s, s', hs, hstep, gone_stays hmade hgone hrun 20⟩

end Cosmic.Session
