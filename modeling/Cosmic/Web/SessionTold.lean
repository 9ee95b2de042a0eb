/-
What a request notes of its session is what it did, after any of its calls.
-/
import Cosmic.Web.SessionMerge

set_option autoImplicit false

namespace Cosmic.Session

open Cosmic.Base List Option
open Cosmic.Base.Raise

/-- The state of a request says what its acts did to what it loaded. -/
structure Told (st : State) (acts : List Act) (copy : Values) : Prop where
  follows : Follows st (edits acts) copy
  regenerated : st.changes.regenerated = true ↔ .regenerate ∈ acts
  subject : st.changes.subject = bound acts
  unloaded : st.loaded = false → acts = [] ∧ st.data.values = ∅ ∧ st.valid = false ∧ st.changes = nothing
  anonymous : st.valid = false → st.token = []

section

variable {st : State} {acts : List Act} {copy : Values}

/-! ## Loading -/

theorem apply_nothing (base : Values) (key : Bytes) : (apply base nothing).lookup key = base.lookup key := by
  rw [lookup_apply, if_neg (show key ∉ nothing.removed from not_mem_nil)]
  show ((∅ : Values).lookup key).or (base.lookup key) = base.lookup key
  rw [AList.lookup_empty]
  rfl

theorem follows_loaded (hchanges : st.changes = nothing) (hvalid : st.valid = false → st.data.values = ∅) :
    Follows st [] st.data.values where
  values := fun _ => rfl
  merges := by
    intro base key _ _
    rw [hchanges]
    exact apply_nothing base key
  anonymous := hvalid

theorem told_start (sent : Option Bytes) (rolling : Bool) (max_age now : ℤ) :
    Told (State.start sent rolling max_age now) [] ∅ where
  follows := follows_loaded rfl fun _ => rfl
  regenerated := ⟨nofun, nofun⟩
  subject := rfl
  unloaded := fun _ => ⟨rfl, rfl, rfl, rfl⟩
  anonymous := fun _ => rfl

/-- What loading leaves of a session that is not loaded: an anonymous one, or the one that the
cookie's token names. -/
theorem ensured_unloaded (load : Bytes → ℤ → Except Bytes (Option Data)) (hl : st.loaded = false) :
    let st' := ensured load st
    st'.changes = st.changes ∧ (st'.valid = st.valid ∧ st'.token = st.token ∧ st'.data = blank st.now st.max_age ∨
        ∃ token data, load token st.now = .ok (some data) ∧ st'.valid = true ∧ st'.token = token ∧
          st'.data = data) := by
  have hends : Ends (ensure load) st (fun _ st' => st'.changes = st.changes ∧
        (st'.valid = st.valid ∧ st'.token = st.token ∧ st'.data = blank st.now st.max_age ∨
          ∃ token data, load token st.now = .ok (some data) ∧ st'.valid = true ∧ st'.token = token ∧ st'.data = data))
      fun _ st' => st'.changes = st.changes ∧
        (st'.valid = st.valid ∧ st'.token = st.token ∧ st'.data = blank st.now st.max_age ∨
          ∃ token data, load token st.now = .ok (some data) ∧ st'.valid = true ∧ st'.token = token ∧
            st'.data = data) := by
    unfold ensure
    simp only [ends_bind, ends_change, ends_read, id, hl, Bool.false_eq_true, if_false]
    split
    · exact ⟨rfl, .inl ⟨rfl, rfl, rfl⟩⟩
    next token _ =>
    split
    · exact ⟨rfl, .inl ⟨rfl, rfl, rfl⟩⟩
    · split
      · exact ⟨rfl, .inl ⟨rfl, rfl, rfl⟩⟩
      · exact ⟨rfl, .inl ⟨rfl, rfl, rfl⟩⟩
      · next data heq => exact ⟨rfl, .inr ⟨token, data, heq, rfl, rfl, rfl⟩⟩
  unfold ensured
  unfold Ends at hends
  split at hends
  · next heq =>
    rwa [heq]
  · next heq =>
    rwa [heq]

theorem ensured_loaded {load : Bytes → ℤ → Except Bytes (Option Data)} (hl : st.loaded = true) :
    ensured load st = { st with accessed := true } := by
  have hagain : ensure load st = .ok () { st with accessed := true } := by
    show (if ({ st with accessed := true } : State).loaded then answer () else _)
      ({ st with accessed := true } : State) = _
    rw [if_pos hl]
    rfl
  unfold ensured
  rw [hagain]

def first_copy (load : Bytes → ℤ → Except Bytes (Option Data)) (st : State) (copy : Values) : Values :=
  if st.loaded then copy else (ensured load st).data.values

theorem Told.ensured (h : Told st acts copy) (load : Bytes → ℤ → Except Bytes (Option Data)) :
    Told (ensured load st) acts (first_copy load st copy) := by
  have hflags := (ensured_flags load st).2.1
  unfold first_copy
  cases hl : st.loaded with
  | true =>
    rw [if_pos rfl, ensured_loaded hl]
    refine ⟨⟨h.follows.values, h.follows.merges, h.follows.anonymous⟩, h.regenerated, h.subject, ?_, h.anonymous⟩
    intro hnot
    exact absurd (hl.symm.trans hnot) nofun
  | false =>
    obtain ⟨hacts, -, hvalid, hnothing⟩ := h.unloaded hl
    obtain ⟨hchanges, hcase⟩ := ensured_unloaded load hl
    have htoken := h.anonymous hvalid
    subst hacts
    rw [if_neg Bool.false_ne_true]
    have hblank : (Session.ensured load st).valid = false → (Session.ensured load st).data.values = ∅ ∧
        (Session.ensured load st).token = [] := by
      intro hnot
      rcases hcase with ⟨-, htok, hdata⟩ | ⟨-, -, -, hyes, -⟩
      · rw [hdata, htok]
        exact ⟨rfl, htoken⟩
      · exact absurd (hyes.symm.trans hnot) nofun
    refine ⟨follows_loaded (hchanges.trans hnothing) fun hnot => (hblank hnot).1, ?_, ?_, ?_,
      fun hnot => (hblank hnot).2⟩
    · rw [hchanges, h.regenerated]
    · rw [hchanges, h.subject]
    · intro hnot
      exact absurd (hflags.symm.trans hnot) nofun

/-! ## Calls -/

theorem State.remove_flags (st : State) (key : Bytes) : (st.remove key).loaded = st.loaded ∧
    (st.remove key).valid = st.valid ∧ (st.remove key).token = st.token ∧
    (st.remove key).now = st.now ∧
    (st.remove key).changes.regenerated = st.changes.regenerated ∧
    (st.remove key).changes.subject = st.changes.subject := by
  unfold State.remove
  split
  · exact ⟨rfl, rfl, rfl, rfl, rfl, rfl⟩
  · exact ⟨rfl, rfl, rfl, rfl, rfl, rfl⟩

theorem State.clear_flags (st : State) : st.clear.loaded = st.loaded ∧
    st.clear.valid = st.valid ∧ st.clear.token = st.token ∧ st.clear.now = st.now ∧
    st.clear.changes.regenerated = st.changes.regenerated ∧
    st.clear.changes.subject = st.changes.subject := by
  unfold State.clear
  split
  · exact ⟨rfl, rfl, rfl, rfl, rfl, rfl⟩
  · exact ⟨rfl, rfl, rfl, rfl, rfl, rfl⟩

theorem Told.edit {st' : State} (h : Told st acts copy) (hl : st.loaded = true)
    {e : Edit Bytes Value} (hfollows : Follows st' (edits acts ++ [e]) copy)
    (hflags : st'.loaded = st.loaded ∧ st'.valid = st.valid ∧ st'.token = st.token ∧
      st'.now = st.now ∧ st'.changes.regenerated = st.changes.regenerated ∧
      st'.changes.subject = st.changes.subject) : Told st' (acts ++ [.edit e]) copy where
  follows := by
    rwa [edits_snoc]
  regenerated := by
    rw [hflags.2.2.2.2.1, h.regenerated]
    simp
  subject := by
    rw [hflags.2.2.2.2.2, h.subject, bound_snoc]
  unloaded := by
    intro hnot
    rw [hflags.1, hl] at hnot
    cases hnot
  anonymous := by
    rw [hflags.2.1, hflags.2.2.1]
    exact h.anonymous

theorem Told.put (h : Told st acts copy) (hl : st.loaded = true) (key : Bytes) (value : Value) :
    Told (st.put key value) (acts ++ [.edit (.set key value)]) copy :=
  h.edit hl (h.follows.put key value) ⟨rfl, rfl, rfl, rfl, rfl, rfl⟩

theorem Told.remove (h : Told st acts copy) (hl : st.loaded = true) (key : Bytes) :
    Told (st.remove key) (acts ++ [.edit (.delete key)]) copy :=
  h.edit hl (h.follows.remove key) (st.remove_flags key)

theorem Told.clear (h : Told st acts copy) (hl : st.loaded = true) : Told st.clear (acts ++ [.edit .clear]) copy :=
  h.edit hl h.follows.clear st.clear_flags

theorem Told.regenerate (h : Told st acts copy) (hl : st.loaded = true) :
    Told (st.remove CSRF_KEY).renew (acts ++ [.regenerate]) copy := by
  have hremove := h.follows.remove CSRF_KEY
  obtain ⟨hloaded, hvalid, htoken, -, -, hsubject⟩ := st.remove_flags CSRF_KEY
  refine ⟨?_, ?_, ?_, ?_, ?_⟩
  · rw [edits_snoc]
    exact ⟨hremove.values, hremove.merges, hremove.anonymous⟩
  · exact ⟨fun _ => mem_append_right _ mem_cons_self, fun _ => rfl⟩
  · rw [bound_snoc]
    exact hsubject.trans h.subject
  · intro hnot
    exact absurd ((hloaded.trans hl).symm.trans hnot) nofun
  · intro hnot
    exact htoken.trans (h.anonymous (hvalid.symm.trans hnot))

theorem Told.bind (h : Told st acts copy) (hl : st.loaded = true) (subject : Bytes) :
    Told { st with changes := { st.changes with subject := some subject }, dirty := true }
      (acts ++ [.bind subject]) copy where
  follows := by
    rw [edits_snoc, Act.edits, append_nil]
    exact ⟨h.follows.values, h.follows.merges, h.follows.anonymous⟩
  regenerated := by
    refine Iff.trans h.regenerated ?_
    simp
  subject := by
    rw [bound_snoc]
  unloaded := fun hnot => absurd (hl.symm.trans hnot) nofun
  anonymous := h.anonymous

theorem told_drop (hl : st.loaded = true) : Told st.drop [] ∅ where
  follows := follows_loaded rfl fun _ => rfl
  regenerated := ⟨nofun, nofun⟩
  subject := rfl
  unloaded := fun hnot => absurd (hl.symm.trans hnot) nofun
  anonymous := fun _ => rfl

theorem Told.none (h : Told st acts copy) : Told st (acts ++ []) copy := by
  rwa [append_nil]

theorem Told.effect (h : Told st acts copy) (hl : st.loaded = true) {op : Op} (hop : op.resets = false) :
    Told (op.effect st) (acts ++ op.acts st) copy := by
  cases op with
  | set key value =>
    cases value with
    | none => exact h.remove hl key
    | some value => exact h.put hl key value
  | delete key => exact h.remove hl key
  | pop key => exact h.remove hl key
  | clear => exact h.clear hl
  | regenerate => exact h.regenerate hl
  | flash kind text => exact h.put hl FLASH _
  | bind_subject subject => exact h.bind hl subject
  | invalidate => exact absurd hop nofun
  | take_flashes =>
    show Told (st.remove FLASH) (acts ++ if (st.data.values.lookup FLASH).isSome then _ else _) copy
    cases hflash : st.data.values.lookup FLASH with
    | some value => exact h.remove hl FLASH
    | none =>
      -- with no flash there is nothing to take, and nothing is done
      have hsame : st.remove FLASH = st := by
        rw [State.remove, hflash]
      rw [hsame]
      exact h.none
  | get key => exact h.none
  | get_string key => exact h.none
  | get_integer key => exact h.none
  | get_boolean key => exact h.none
  | is_new => exact h.none
  | id => exact h.none

theorem Told.call {r : Request} (h : Told r.st r.acts r.copy) (json : Json)
    (load : Bytes → ℤ → Except Bytes (Option Data)) (op : Op) :
    let r' := r.call json load op
    Told r'.st r'.acts r'.copy := by
  have hfirst := h.ensured load
  have hl := (ensured_flags load r.st).2.1
  have hends := ends_exec json load r.st op
  unfold After Ends at hends
  unfold Request.call
  split at hends
  · next heq =>
    rw [heq]
    subst hends
    cases hop : op.resets with
    | false => exact hfirst.effect hl hop
    | true =>
      cases op with
      | invalidate => exact told_drop hl
      | _ => exact absurd hop nofun
  · next why st' heq =>
    rw [heq]
    rcases hends with rfl | rfl
    · cases hloaded : r.st.loaded with
      | true => exact h
      | false =>
        obtain ⟨hacts, hvalues, hvalid, hnothing⟩ := h.unloaded hloaded
        refine ⟨?_, h.regenerated, h.subject, h.unloaded, h.anonymous⟩
        rw [hacts]
        exact follows_loaded hnothing fun _ => hvalues
    · exact hfirst

theorem Told.rolled (h : Told st acts copy) : Told st.rolled acts copy := by
  unfold State.rolled
  split
  · exact ⟨⟨h.follows.values, h.follows.merges, h.follows.anonymous⟩, h.regenerated, h.subject, h.unloaded,
      h.anonymous⟩
  · exact h

end

/-!
Requests that share a session lose no change of each other.

In any state that a run reaches, a request that has a session has one that the table had, and no
query but a save puts anything in the table. So a save finds the row the other requests left, and
does to it what the request did.
-/

variable {o : Outside}

/-! ## The session of a request -/

/-- The state names the session it named before, one that was loaded, or none. -/
structure Names (load : Bytes → ℤ → Except Bytes (Option Data)) (st st' : State) : Prop where
  now : st'.now = st.now
  token : st'.valid = true → st.valid = true ∧ st'.token = st.token ∨ ∃ data, load st'.token st.now = .ok (some data)

theorem Names.refl (load : Bytes → ℤ → Except Bytes (Option Data)) (st : State) : Names load st st :=
  ⟨rfl, fun hvalid => .inl ⟨hvalid, rfl⟩⟩

theorem names_ensured (load : Bytes → ℤ → Except Bytes (Option Data)) (st : State) :
    Names load st (ensured load st) where
  now := (ensured_flags load st).2.2.2.1
  token := by
    intro hvalid
    cases hl : st.loaded with
    | true =>
      rw [ensured_loaded hl] at hvalid ⊢
      exact .inl ⟨hvalid, rfl⟩
    | false =>
      rcases (ensured_unloaded load hl).2 with ⟨hsame, htoken, -⟩ | ⟨token, data, hload, -, htoken, -⟩
      · exact .inl ⟨hsame.symm.trans hvalid, htoken⟩
      · exact .inr ⟨data, by rw [htoken]; exact hload⟩

theorem effect_names (op : Op) (st : State) : (op.effect st).now = st.now ∧
    ((op.effect st).valid = true → st.valid = true ∧ (op.effect st).token = st.token) := by
  have hremove : ∀ key, (st.remove key).now = st.now ∧
      ((st.remove key).valid = true → st.valid = true ∧ (st.remove key).token = st.token) := by
    intro key
    obtain ⟨-, hvalid, htoken, hnow, -⟩ := st.remove_flags key
    exact ⟨hnow, fun h => ⟨hvalid.symm.trans h, htoken⟩⟩
  cases op with
  | set key value =>
    cases value with
    | none => exact hremove key
    | some value => exact ⟨rfl, fun h => ⟨h, rfl⟩⟩
  | delete key => exact hremove key
  | pop key => exact hremove key
  | take_flashes => exact hremove FLASH
  | regenerate => exact hremove CSRF_KEY
  | clear =>
    obtain ⟨-, hvalid, htoken, hnow, -⟩ := st.clear_flags
    exact ⟨hnow, fun h => ⟨hvalid.symm.trans h, htoken⟩⟩
  | invalidate => exact ⟨rfl, nofun⟩
  | _ => exact ⟨rfl, fun h => ⟨h, rfl⟩⟩

theorem names_call (r : Request) (json : Json) (load : Bytes → ℤ → Except Bytes (Option Data)) (op : Op) :
    Names load r.st (r.call json load op).st := by
  have hends := ends_exec json load r.st op
  unfold After Ends at hends
  unfold Request.call
  have hfirst := names_ensured load r.st
  split at hends
  · next st' heq =>
    rw [heq]
    have hnames : Names load r.st st' := by
      obtain ⟨hnow, htoken⟩ := effect_names op (ensured load r.st)
      rw [hends]
      refine ⟨hnow.trans hfirst.now, fun hvalid => ?_⟩
      obtain ⟨hbefore, hsame⟩ := htoken hvalid
      rw [hsame]
      exact hfirst.token hbefore
    cases op.resets with
    | true => exact hnames
    | false => exact hnames
  · next heq =>
    rw [heq]
    rcases hends with rfl | rfl
    · exact Names.refl load r.st
    · exact hfirst

/-- A session that a request has was in the table, and does not expire before the request's time. -/
structure Known (o : Outside) (s : Sys) (st : State) : Prop where
  is_id : is_id o st.token = true
  made : o.sha256 st.token ∈ s.hashes
  lives : ∀ row, s.rows.lookup (o.sha256 st.token) = some row → st.now < row.expires

theorem find_some {rows : Rows} {token : Bytes} {now : ℤ} {row : Row} (h : find o rows token now = some row) :
    is_id o token = true ∧ rows.lookup (o.sha256 token) = some row ∧ now < row.expires := by
  unfold find at h
  split at h
  · next hid =>
    obtain ⟨hrow, hnow⟩ := filter_eq_some_iff.mp h
    exact ⟨hid, hrow, of_decide_eq_true hnow⟩
  · cases h

theorem find_of_loads {rows : Rows} {failure : Option Bytes} {token : Bytes} {now : ℤ} {data : Data}
    (h : loads o rows failure token now = .ok (some data)) : ∃ row, find o rows token now = some row := by
  unfold loads at h
  split at h
  · cases h
  · injection h with h
    obtain ⟨row, hrow, -⟩ := bind_eq_some_iff.mp h
    exact ⟨row, hrow⟩

/-! ## What stays in any run -/

/-- The system is as its steps keep it: each request notes what it did, what it has was in the table,
and the table holds texts that read back under ids that were made. -/
structure Sound (o : Outside) (s : Sys) : Prop where
  told : ∀ r ∈ s.requests, Told r.st r.acts r.copy
  known : ∀ r ∈ s.requests, r.st.valid = true → Known o s r.st
  made : ∀ key ∈ s.rows, key ∈ s.hashes
  reads : ∀ key row, s.rows.lookup key = some row → ∃ values, values_of o row.data = some values

/-- A change of the table that makes nothing expire sooner, and puts rows only under new ids or where
rows are. -/
structure Grows (s : Sys) (rows : Rows) (hashes : List Bytes) : Prop where
  made : ∀ key ∈ s.hashes, key ∈ hashes
  rows : ∀ key ∈ s.hashes, ∀ row, rows.lookup key = some row →
    ∃ old, s.rows.lookup key = some old ∧ old.expires ≤ row.expires

theorem Known.grows {s : Sys} {st : State} (h : Known o s st) {rows : Rows} {hashes : List Bytes}
    (hgrows : Grows s rows hashes) (requests : List Request) : Known o ⟨rows, hashes, requests⟩ st where
  is_id := h.is_id
  made := hgrows.made _ h.made
  lives := by
    intro row hrow
    obtain ⟨old, hold, hle⟩ := hgrows.rows _ h.made row hrow
    exact lt_of_lt_of_le (h.lives old hold) hle

/-- A table of which rows were only removed. -/
def Thins (rows rows' : Rows) : Prop := ∀ key, rows'.lookup key = rows.lookup key ∨ rows'.lookup key = none

theorem Thins.kept {rows rows' : Rows} (h : Thins rows rows') {key : Bytes} {row : Row}
    (hrow : rows'.lookup key = some row) : rows.lookup key = some row := by
  rcases h key with heq | heq
  · rw [← heq, hrow]
  · rw [heq] at hrow
    cases hrow

theorem Thins.mem {rows rows' : Rows} (h : Thins rows rows') {key : Bytes} (hkey : key ∈ rows') : key ∈ rows := by
  obtain ⟨row, hrow⟩ := isSome_iff_exists.mp (AList.lookup_isSome.mpr hkey)
  exact AList.lookup_isSome.mp (by rw [h.kept hrow]; rfl)

theorem Thins.grows {s : Sys} {rows : Rows} (h : Thins s.rows rows) : Grows s rows s.hashes where
  made := fun _ hkey => hkey
  rows := fun _ _ row hrow => ⟨row, h.kept hrow, le_rfl⟩

theorem thins_erase (rows : Rows) (key : Bytes) : Thins rows (rows.erase key) := by
  intro k
  by_cases hk : k = key
  · rw [hk]
    exact .inr (AList.lookup_erase _ _)
  · exact .inl (AList.lookup_erase_ne hk)

theorem thins_eraseAll (rows : Rows) (keys : List Bytes) : Thins rows (rows.eraseAll keys) := by
  induction keys generalizing rows with
  | nil => exact fun _ => .inl rfl
  | cons k keys ih =>
    intro key
    rcases ih (rows.erase k) key with heq | heq
    · rcases thins_erase rows k key with hone | hone
      · exact .inl (heq.trans hone)
      · exact .inr (heq.trans hone)
    · exact .inr heq

theorem thins_destroy (rows : Rows) (token : Bytes) : Thins rows (destroy_session o rows token) := by
  unfold destroy_session
  split
  · exact thins_erase rows _
  · exact fun _ => .inl rfl

section

variable {s : Sys}

theorem Sound.request (h : Sound o s) {rows : Rows} (hthin : Thins s.rows rows) (i : ℕ) {r' : Request}
    (htold : Told r'.st r'.acts r'.copy)
    (hknown : r'.st.valid = true → Known o s r'.st) :
    Sound o ⟨rows, s.hashes, s.requests.set i r'⟩ where
  told := by
    intro q hq
    rcases mem_or_eq_of_mem_set hq with hq | rfl
    · exact h.told q hq
    · exact htold
  known := by
    intro q hq hvalid
    rcases mem_or_eq_of_mem_set hq with hq | rfl
    · exact (h.known q hq hvalid).grows hthin.grows _
    · exact (hknown hvalid).grows hthin.grows _
  made := fun key hkey => h.made key (hthin.mem hkey)
  reads := fun key row hrow => h.reads key row (hthin.kept hrow)

/-- A step of the table of which rows were only removed. -/
theorem Sound.thins (h : Sound o s) {rows : Rows} (hthin : Thins s.rows rows) : Sound o { s with rows } where
  told := h.told
  known := fun q hq hvalid => (h.known q hq hvalid).grows hthin.grows _
  made := fun key hkey => h.made key (hthin.mem hkey)
  reads := fun key row hrow => h.reads key row (hthin.kept hrow)

theorem Sound.start (h : Sound o s) (sent : Option Bytes) (rolling : Bool) (max_age now : ℤ) :
    Sound o { s with requests := s.requests ++ [Request.start sent rolling max_age now] } where
  told := by
    intro q hq
    rcases mem_append.mp hq with hq | hq
    · exact h.told q hq
    · rw [mem_singleton.mp hq]
      exact told_start sent rolling max_age now
  known := by
    intro q hq hvalid
    rcases mem_append.mp hq with hq | hq
    · exact ⟨(h.known q hq hvalid).is_id, (h.known q hq hvalid).made, (h.known q hq hvalid).lives⟩
    · rw [mem_singleton.mp hq] at hvalid
      cases hvalid
  made := h.made
  reads := h.reads

theorem Sound.call (h : Sound o s) {i : ℕ} {r : Request} (hr : s.requests[i]? = some r) (op : Op)
    (failure : Option Bytes) : Sound o
      ⟨s.rows, s.hashes, s.requests.set i (r.call o.json (loads o s.rows failure) op)⟩ := by
  have hmem := mem_of_getElem? hr
  have hnames := names_call r o.json (loads o s.rows failure) op
  refine h.request (fun _ => .inl rfl) i ((h.told r hmem).call o.json _ op) fun hvalid => ?_
  rcases hnames.token hvalid with ⟨hbefore, htoken⟩ | ⟨data, hload⟩
  · have hknown := h.known r hmem hbefore
    refine ⟨?_, ?_, ?_⟩
    · rw [htoken]
      exact hknown.is_id
    · rw [htoken]
      exact hknown.made
    · rw [htoken, hnames.now]
      exact hknown.lives
  · obtain ⟨row, hfind⟩ := find_of_loads hload
    obtain ⟨hid, hrow, hlives⟩ := find_some hfind
    refine ⟨hid, h.made _ (AList.lookup_isSome.mp (by rw [hrow]; rfl)), fun row' hrow' => ?_⟩
    obtain rfl := some.inj (hrow.symm.trans hrow')
    rwa [hnames.now]

end

end Cosmic.Session
