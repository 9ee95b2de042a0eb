/-
What `hello_name` reads: the grammar of a ClientHello.

A vector is written after its length. A hello is a structure whose vectors are within their lengths'
ranges, and what `hello_name` accepts is the text of one, with each vector filling the one around it.
-/
import Cosmic.Relay.HelloRecord

set_option autoImplicit false

namespace Cosmic.Wire

open Cosmic.Base List Except

/-! ## Vectors -/

def vector8 (v : Bytes) : Bytes := UInt8.ofNat v.length :: v

def vector16 (v : Bytes) : Bytes := u16_bytes v.length ++ v

@[simp] theorem vector8_length (v : Bytes) : (vector8 v).length = v.length + 1 := rfl

@[simp] theorem vector16_length (v : Bytes) : (vector16 v).length = v.length + 2 := by
  unfold vector16
  rw [length_append, u16_bytes_length, Nat.add_comm]

section

variable {body w s : Bytes} {k : ℕ}

theorem exists_byte (hb : body = w ++ s) (hk : w.length + 1 = k) (h : k ≤ body.length) :
    ∃ rest, body = (w ++ [byte_at body k]) ++ rest := by
  rw [hb, length_append] at h
  obtain ⟨b, t, rfl⟩ := exists_cons (show 1 ≤ s.length by omega)
  refine ⟨t, ?_⟩
  rw [hb, byte_at_middle w b t hk, append_assoc, singleton_append]

theorem exists_u16 (hb : body = w ++ s) (hk : w.length + 1 = k) (h : k + 1 ≤ body.length) :
    ∃ rest, body = (w ++ u16_bytes (u16 body k)) ++ rest := by
  rw [hb, length_append] at h
  obtain ⟨a, t, rfl⟩ := exists_cons (show 1 ≤ s.length by omega)
  rw [length_cons] at h
  obtain ⟨b, t', rfl⟩ := exists_cons (show 1 ≤ t.length by omega)
  refine ⟨t', ?_⟩
  rw [hb, u16_middle w a b t' hk, u16_bytes_pair, append_assoc]
  rfl

theorem exists_vector8 (hb : body = w ++ s) (hk : w.length + 1 = k)
    (h : k + (byte_at body k).toNat ≤ body.length) (hk' : k ≤ body.length) :
    ∃ v rest, body = (w ++ vector8 v) ++ rest ∧ v.length = (byte_at body k).toNat := by
  obtain ⟨rest, hrest⟩ := exists_byte hb hk hk'
  have hlen := congrArg List.length hrest
  rw [length_append, length_append, length_singleton] at hlen
  obtain ⟨v, t, rfl, hv⟩ := exists_split (show (byte_at body k).toNat ≤ rest.length by omega)
  refine ⟨v, t, ?_, hv⟩
  unfold vector8
  rw [hv, UInt8.ofNat_toNat, ← singleton_append, ← append_assoc, append_assoc, ← hrest]

theorem exists_vector16 (hb : body = w ++ s) (hk : w.length + 1 = k) (h : k + 1 + u16 body k ≤ body.length) :
    ∃ v rest, body = (w ++ vector16 v) ++ rest ∧ v.length = u16 body k := by
  obtain ⟨rest, hrest⟩ := exists_u16 hb hk (by omega)
  have hlen := congrArg List.length hrest
  rw [length_append, length_append, u16_bytes_length] at hlen
  obtain ⟨v, t, rfl, hv⟩ := exists_split (show u16 body k ≤ rest.length by omega)
  refine ⟨v, t, ?_, hv⟩
  unfold vector16
  rw [hv, ← append_assoc, append_assoc, ← hrest]

theorem sub_vector16 {v rest : Bytes} (hb : body = (w ++ vector16 v) ++ rest) (hk : w.length + 1 = k) :
    sub body (k + 2) (k + 1 + v.length) = v := by
  have hsplit : body = (w ++ u16_bytes v.length) ++ (v ++ rest) := by
    rw [hb]
    unfold vector16
    simp only [append_assoc]
  have hlen : (w ++ u16_bytes v.length).length = w.length + 2 := by
    rw [length_append, u16_bytes_length]
  rw [hsplit]
  exact sub_middle _ _ _ (by omega) (by omega)

end

theorem u16_lt (text : Bytes) (k : ℕ) : u16 text k < 65536 := pair_lt _ _

/-! ## The grammar -/

structure NameEntry where
  kind : UInt8
  name : Bytes
  name_lt : name.length < 65536

def NameEntry.encode (e : NameEntry) : Bytes := e.kind :: vector16 e.name

/-- The data of a `server_name` extension. -/
def name_list (es : List NameEntry) : Bytes := vector16 (es.map NameEntry.encode).flatten

structure Extension where
  kind : ℕ
  data : Bytes
  kind_lt : kind < 65536
  data_lt : data.length < 65536

def Extension.encode (e : Extension) : Bytes := u16_bytes e.kind ++ vector16 e.data

def extension_list (es : List Extension) : Bytes := (es.map Extension.encode).flatten

/-- A ClientHello: version and random, session id, cipher suites, compression methods and, where it has
them, extensions. -/
structure ClientHello where
  fixed : Bytes
  session : Bytes
  suites : Bytes
  methods : Bytes
  extensions : Option (List Extension)
  fixed_length : fixed.length = 34
  session_le : session.length ≤ 32
  suites_ge : 2 ≤ suites.length
  suites_even : suites.length % 2 = 0
  suites_lt : suites.length < 65536
  methods_ge : 1 ≤ methods.length
  methods_lt : methods.length < 256
  extensions_lt : ∀ es, extensions = some es → (extension_list es).length < 65536

namespace ClientHello

/-- The text of a hello's body. -/
def encode (h : ClientHello) : Bytes :=
  h.fixed ++ vector8 h.session ++ vector16 h.suites ++ vector8 h.methods ++
    h.extensions.elim [] fun es => vector16 (extension_list es)

def list (h : ClientHello) : List Extension := h.extensions.getD []

/-- The name that an extension of kind 0 holds: one entry, of type host_name, whose canonical name it
is. -/
def Host (e : Extension) (n : Bytes) : Prop :=
  ∃ entry : NameEntry, entry.kind = 0 ∧ e.data = name_list [entry] ∧ Grant.name entry.name = .ok n

theorem Host.ne_nil {e : Extension} {n : Bytes} (h : Host e n) : n ≠ [] := by
  obtain ⟨entry, -, -, hname⟩ := h
  intro hn
  exact (Grant.name_ok_iff.mp hname).2.filled hn

/-- What no length can say: no extension is repeated, and a `server_name` extension names one host. -/
structure Sound (h : ClientHello) : Prop where
  distinct : (h.list.map Extension.kind).Nodup
  host : ∀ e ∈ h.list, e.kind = 0 → ∃ n, Host e n

/-- The hello has one `server_name` extension, which names `n`, and none that encrypts its name. -/
structure Names (h : ClientHello) (n : Bytes) : Prop where
  named : ∃ e, h.list.filter (·.kind = 0) = [e] ∧ Host e n
  open_ : ∀ e ∈ h.list, ENCRYPTED e.kind = false

end ClientHello

/-! ## The fixed fields -/

theorem except_failed {ε α : Type} {p : Prop} [Decidable p] {why : ε} {x : Except ε α} {r : α}
    (h : (if p then .error why else x) = .ok r) : ¬p ∧ x = .ok r :=
  of_failed (P := fun y : Except ε α => y = .ok r) h (by simp)

theorem after_methods_ok {body : Bytes} {at_ : ℕ} (h : after_methods body = .ok at_) :
    ∃ fixed session suites methods rest : Bytes, fixed.length = 34 ∧ session.length ≤ 32 ∧
      2 ≤ suites.length ∧ suites.length % 2 = 0 ∧ suites.length < 65536 ∧ 1 ≤ methods.length ∧
      methods.length < 256 ∧
      body = (fixed ++ vector8 session ++ vector16 suites ++ vector8 methods) ++ rest ∧
      (fixed ++ vector8 session ++ vector16 suites ++ vector8 methods).length + 1 = at_ := by
  obtain ⟨h₁, h⟩ := except_failed h
  obtain ⟨h₂, h⟩ := except_failed h
  obtain ⟨h₃, h⟩ := except_failed h
  obtain ⟨h₄, h⟩ := except_failed h
  obtain ⟨h₅, h⟩ := except_failed h
  obtain ⟨h₆, h⟩ := except_failed h
  have hat := ok.inj h
  obtain ⟨fixed, s, hb₀, hfixed⟩ := exists_split (show 34 ≤ body.length by omega)
  obtain ⟨session, s₁, hb₁, hsession⟩ := exists_vector8 (k := 35) hb₀ (by omega) (by omega) (by omega)
  have hw₁ : (fixed ++ vector8 session).length = 35 + session.length := by
    rw [length_append, vector8_length]
    omega
  obtain ⟨suites, s₂, hb₂, hsuites⟩ := exists_vector16 (k := 35 + 1 + (byte_at body 35).toNat) hb₁
    (by omega) (by omega)
  have hw₂ : (fixed ++ vector8 session ++ vector16 suites).length = 37 + session.length + suites.length := by
    rw [length_append, vector16_length]
    omega
  obtain ⟨methods, s₃, hb₃, hmethods⟩ := exists_vector8
    (k := 35 + 1 + (byte_at body 35).toNat + 2 + u16 body (35 + 1 + (byte_at body 35).toNat)) hb₂
    (by omega) (by omega) (by omega)
  have hw₃ : (fixed ++ vector8 session ++ vector16 suites ++ vector8 methods).length =
      38 + session.length + suites.length + methods.length := by
    rw [length_append, vector8_length]
    omega
  have hlt := u16_lt body (35 + 1 + (byte_at body 35).toNat)
  have hlt' := (byte_at body (35 + 1 + (byte_at body 35).toNat + 2 +
    u16 body (35 + 1 + (byte_at body 35).toNat))).toNat_lt
  exact ⟨fixed, session, suites, methods, s₃, hfixed, by omega, by omega, by omega, by omega, by omega,
    by omega, hb₃, by omega⟩

/-! ## The server name -/

theorem name_ne_nil {text n : Bytes} (h : Grant.name text = .ok n) : n ≠ [] :=
  fun hn => (Grant.name_ok_iff.mp h).2.filled hn

theorem name_entry_ok {list w s found name : Bytes} {entry next : ℕ} (hb : list = w ++ s)
    (hk : w.length + 1 = entry) (h : name_entry list found entry = .ok (name, next)) :
    found = [] ∧ ∃ (e : NameEntry) (rest : Bytes), e.kind = 0 ∧ list = (w ++ e.encode) ++ rest ∧
      (w ++ e.encode).length + 1 = next ∧ Grant.name e.name = .ok name := by
  obtain ⟨h₁, h⟩ := except_failed h
  obtain ⟨h₂, h⟩ := except_failed h
  obtain ⟨h₃, h⟩ := except_failed h
  obtain ⟨h₄, h⟩ := except_failed h
  obtain ⟨s₁, hb₁⟩ := exists_byte hb hk (by omega)
  rw [not_not.mp h₃] at hb₁
  obtain ⟨v, rest, hb₂, hv⟩ := exists_vector16 (k := entry + 1) hb₁
    (by rw [length_append, length_singleton]; omega) (by omega)
  have hsub : sub list (entry + 3) (entry + 2 + u16 list (entry + 1)) = v := by
    rw [← hv]
    exact sub_vector16 hb₂ (by rw [length_append, length_singleton]; omega)
  rw [hsub] at h
  cases hname : Grant.name v with
  | error why =>
    rw [hname] at h
    cases h
  | ok n =>
    rw [hname] at h
    cases h
    obtain ⟨e, hkind, rfl⟩ : ∃ e : NameEntry, e.kind = 0 ∧ e.name = v := ⟨⟨0, v, hv ▸ u16_lt _ _⟩, rfl, rfl⟩
    have hencode : w ++ e.encode = w ++ [0] ++ vector16 e.name := by
      rw [NameEntry.encode, hkind, append_assoc, singleton_append]
    have hlen : (w ++ [(0 : UInt8)] ++ vector16 e.name).length = w.length + 3 + e.name.length := by
      rw [length_append, length_append, length_singleton, vector16_length]
      omega
    refine ⟨not_not.mp h₄, e, rest, hkind, ?_, ?_, hname⟩
    · rw [hencode, hb₂]
    · rw [hencode, hlen]
      omega

theorem name_loop_past {list found : Bytes} (rounds : ℕ) {entry : ℕ} (h : ¬entry ≤ list.length) :
    name_loop list rounds found entry = .ok found := by
  cases rounds with
  | zero => rfl
  | succ rounds => exact if_neg h

theorem name_loop_step {list found name : Bytes} {rounds entry : ℕ} (hle : entry ≤ list.length)
    (h : name_loop list (rounds + 1) found entry = .ok name) :
    ∃ found' next, name_entry list found entry = .ok (found', next) ∧
      name_loop list rounds found' next = .ok name := by
  unfold name_loop at h
  rw [if_pos hle] at h
  cases he : name_entry list found entry with
  | error why =>
    rw [he] at h
    cases h
  | ok p =>
    rw [he] at h
    exact ⟨p.1, p.2, rfl, h⟩

theorem server_name_ok {list found name : Bytes} (h : server_name list found = .ok name) :
    found = [] ∧ ∃ e : NameEntry, e.kind = 0 ∧ list = name_list [e] ∧ Grant.name e.name = .ok name := by
  obtain ⟨hlen, h⟩ := except_failed h
  obtain ⟨rounds, hrounds⟩ : ∃ rounds, list.length = rounds + 2 := ⟨list.length - 2, by omega⟩
  obtain ⟨s, hb⟩ := exists_u16 (k := 1) (nil_append list).symm rfl (by omega)
  rw [hrounds] at h
  obtain ⟨found', next, hentry, hloop⟩ := name_loop_step (by omega) h
  obtain ⟨rfl, e, rest, hkind, hlist, hnext, hname⟩ := name_entry_ok hb (by simp) hentry
  refine ⟨rfl, e, hkind, ?_⟩
  -- a second entry would be refused, as a name is never empty
  have hend : ¬next ≤ list.length := by
    intro hle
    obtain ⟨found'', next', hentry', -⟩ := name_loop_step hle hloop
    obtain ⟨hempty, -⟩ := name_entry_ok hlist hnext hentry'
    exact name_ne_nil hname hempty
  rw [name_loop_past _ hend] at hloop
  obtain rfl : found' = name := ok.inj hloop
  refine ⟨?_, hname⟩
  rw [nil_append] at hlist hnext
  have hlength := congrArg List.length hlist
  rw [length_append, length_append, u16_bytes_length] at hlength
  rw [length_append, u16_bytes_length] at hnext
  have hrest : rest = [] := length_eq_zero_iff.mp (by omega)
  have hu : u16 list 1 = e.encode.length := by omega
  rw [hrest, append_nil, hu] at hlist
  rw [hlist, name_list, vector16, map_singleton, flatten_singleton]

/-! ## The extensions -/

/-- A round over the extensions takes one that no earlier round took. -/
structure Seen.Takes (st : Seen) (e : Extension) (st' : Seen) : Prop where
  fresh : e.kind ∉ st.seen
  seen : st'.seen = e.kind :: st.seen
  encrypted : st'.encrypted = (st.encrypted || ENCRYPTED e.kind)
  named : e.kind = 0 → st.found = [] ∧ ClientHello.Host e st'.found
  other : e.kind ≠ 0 → st'.found = st.found

theorem extension_ok {body w s : Bytes} {st st' : Seen} {at_ next : ℕ} (hb : body = w ++ s)
    (hk : w.length + 1 = at_) (h : extension body st at_ = .ok (st', next)) :
    ∃ (e : Extension) (rest : Bytes), st.Takes e st' ∧ body = (w ++ e.encode) ++ rest ∧
      (w ++ e.encode).length + 1 = next := by
  obtain ⟨h₁, h⟩ := except_failed h
  obtain ⟨h₂, h⟩ := except_failed h
  obtain ⟨h₃, h⟩ := except_failed h
  obtain ⟨s₁, hb₁⟩ := exists_u16 hb hk (by omega)
  have hw₁ : (w ++ u16_bytes (u16 body at_)).length + 1 = at_ + 2 := by
    rw [length_append, u16_bytes_length]
    omega
  obtain ⟨data, rest, hb₂, hdata⟩ := exists_vector16 hb₁ hw₁ (by omega)
  have hsub : sub body (at_ + 4) (at_ + 3 + u16 body (at_ + 2)) = data := by
    rw [← hdata]
    exact sub_vector16 hb₂ hw₁
  rw [hsub] at h
  obtain ⟨e, hkind, rfl⟩ : ∃ e : Extension, e.kind = u16 body at_ ∧ e.data = data :=
    ⟨⟨u16 body at_, data, u16_lt _ _, hdata ▸ u16_lt _ _⟩, rfl, rfl⟩
  have hencode : w ++ e.encode = w ++ u16_bytes (u16 body at_) ++ vector16 e.data := by
    rw [Extension.encode, hkind, append_assoc]
  have hlen : (w ++ e.encode).length + 1 = at_ + 4 + u16 body (at_ + 2) := by
    rw [hencode, length_append, vector16_length]
    omega
  rw [← hkind] at h h₃
  have htakes : st.Takes e st' ∧ at_ + 4 + u16 body (at_ + 2) = next := by
    by_cases hzero : e.kind = 0
    · rw [if_pos hzero] at h
      cases hserver : server_name e.data st.found with
      | error why =>
        rw [hserver] at h
        cases h
      | ok found =>
        rw [hserver] at h
        obtain ⟨rfl, hnext⟩ := Prod.mk.inj (ok.inj h)
        obtain ⟨hfound, hhost⟩ := server_name_ok hserver
        exact ⟨⟨h₃, rfl, rfl, fun _ => ⟨hfound, hhost⟩, fun hne => absurd hzero hne⟩, hnext⟩
    · rw [if_neg hzero] at h
      obtain ⟨rfl, hnext⟩ := Prod.mk.inj (ok.inj h)
      exact ⟨⟨h₃, rfl, rfl, fun h₀ => absurd h₀ hzero, fun _ => rfl⟩, hnext⟩
  refine ⟨e, rest, htakes.1, ?_, hlen.trans htakes.2⟩
  rwa [hencode]

inductive Seen.Run : Seen → List Extension → Seen → Prop
  | nil (st : Seen) : Run st [] st
  | cons {st st' st'' : Seen} {e : Extension} {es : List Extension} (h : st.Takes e st')
      (hes : Run st' es st'') : Run st (e :: es) st''

theorem extension_loop_ok {body : Bytes} {server : ServerName} :
    ∀ (rounds : ℕ) (w s : Bytes) (st : Seen) (at_ : ℕ), body = w ++ s → w.length + 1 = at_ →
      s.length ≤ rounds → extension_loop body rounds st at_ = .ok server →
        ∃ es st', s = extension_list es ∧ st.Run es st' ∧ server = ⟨st'.found, st'.encrypted⟩ := by
  intro rounds
  induction rounds with
  | zero =>
    intro w s st at_ hb hk hs h
    have hnil : s = [] := length_eq_zero_iff.mp (Nat.le_zero.mp hs)
    exact ⟨[], st, hnil, .nil st, (ok.inj h).symm⟩
  | succ rounds ih =>
    intro w s st at_ hb hk hs h
    have hlength := congrArg List.length hb
    rw [length_append] at hlength
    unfold extension_loop at h
    by_cases hle : at_ ≤ body.length
    · rw [if_pos hle] at h
      cases hext : extension body st at_ with
      | error why =>
        rw [hext] at h
        cases h
      | ok p =>
        rw [hext] at h
        obtain ⟨e, rest, htakes, hb', hnext⟩ := extension_ok hb hk (show _ = Except.ok (p.1, p.2) from hext)
        have hs' : s = e.encode ++ rest := by
          rw [hb, append_assoc] at hb'
          exact append_cancel_left hb'
        have hshort : rest.length ≤ rounds := by
          rw [hs', length_append, Extension.encode, length_append, u16_bytes_length] at hs
          omega
        obtain ⟨es, st', hes, hrun, hserver⟩ := ih _ rest p.1 p.2 hb' hnext hshort h
        refine ⟨e :: es, st', ?_, .cons htakes hrun, hserver⟩
        rw [hs', hes]
        rfl
    · rw [if_neg hle] at h
      have hnil : s = [] := length_eq_zero_iff.mp (by omega)
      exact ⟨[], st, hnil, .nil st, (ok.inj h).symm⟩

namespace Seen.Run

variable {st st' : Seen} {es : List Extension}

theorem distinct (h : st.Run es st') : (es.map Extension.kind).Nodup ∧ ∀ e ∈ es, e.kind ∉ st.seen := by
  induction h with
  | nil st => exact ⟨nodup_nil, nofun⟩
  | cons h hes ih =>
    rw [h.seen] at ih
    rw [map_cons, nodup_cons]
    refine ⟨⟨?_, ih.1⟩, ?_⟩
    · intro hmem
      obtain ⟨e', he', hkind⟩ := mem_map.mp hmem
      exact ih.2 e' he' (hkind ▸ mem_cons_self)
    · intro e' he'
      rcases mem_cons.mp he' with rfl | he'
      · exact h.fresh
      · exact fun hmem => ih.2 e' he' (mem_cons_of_mem _ hmem)

theorem encrypted (h : st.Run es st') : st'.encrypted = (st.encrypted || es.any fun e => ENCRYPTED e.kind) := by
  induction h with
  | nil st => simp
  | cons h hes ih => rw [ih, h.encrypted, any_cons, Bool.or_assoc]

theorem found (h : st.Run es st') : (∀ e ∈ es, e.kind = 0 → st.found = [] ∧ ClientHello.Host e st'.found) ∧
      ((∀ e ∈ es, e.kind ≠ 0) → st'.found = st.found) := by
  induction h with
  | nil st => exact ⟨nofun, fun _ => rfl⟩
  | @cons st st₁ st' e es h hes ih =>
    by_cases hzero : e.kind = 0
    · obtain ⟨hnone, hhost⟩ := h.named hzero
      have hother : ∀ e' ∈ es, e'.kind ≠ 0 := by
        intro e' he' hzero'
        exact hhost.ne_nil (ih.1 e' he' hzero').1
      rw [ih.2 hother]
      refine ⟨fun e' he' hzero' => ⟨hnone, ?_⟩, fun hall => ?_⟩
      · rcases mem_cons.mp he' with rfl | he'
        · exact hhost
        · exact absurd hzero' (hother e' he')
      · exact absurd hzero (hall e mem_cons_self)
    · have hsame := h.other hzero
      rw [← hsame]
      refine ⟨fun e' he' hzero' => ?_, fun hall => ?_⟩
      · rcases mem_cons.mp he' with rfl | he'
        · exact absurd hzero' hzero
        · exact ih.1 e' he' hzero'
      · exact ih.2 fun e' he' => hall e' (mem_cons_of_mem _ he')

end Seen.Run

theorem filter_kind {es : List Extension} (hnodup : (es.map Extension.kind).Nodup) {e : Extension}
    (he : e ∈ es) : es.filter (fun e' => e'.kind = e.kind) = [e] := by
  induction es with
  | nil => cases he
  | cons e' es ih =>
    rw [map_cons, nodup_cons] at hnodup
    rcases mem_cons.mp he with rfl | he
    · have hnone : es.filter (fun e' => e'.kind = e.kind) = [] := by
        apply filter_eq_nil_iff.mpr
        intro e' he' hkind
        exact hnodup.1 (mem_map.mpr ⟨e', he', by simpa using hkind⟩)
      rw [filter_cons_of_pos (by simp), hnone]
    · have hne : e'.kind ≠ e.kind := fun h => hnodup.1 (mem_map.mpr ⟨e, he, h.symm⟩)
      rw [filter_cons_of_neg (by simpa using hne), ih hnodup.2 he]

/-- What is accepted is the text of a hello, which says what is read of it. -/
theorem hello_name_ok {body : Bytes} {server : ServerName} (h : hello_name body = .ok server) :
    ∃ c : ClientHello, body = c.encode ∧ c.Sound ∧
      (server.encrypted = false → server.name ≠ [] → c.Names server.name) := by
  unfold hello_name at h
  cases hmethods : after_methods body with
  | error why =>
    rw [hmethods] at h
    cases h
  | ok at_ =>
    rw [hmethods] at h
    obtain ⟨fixed, session, suites, methods, rest, h₁, h₂, h₃, h₄, h₅, h₆, h₇, hb, hk⟩ := after_methods_ok hmethods
    have hlength := congrArg List.length hb
    rw [length_append] at hlength
    dsimp only at h
    by_cases hend : at_ = body.length + 1
    · rw [if_pos hend] at h
      have hrest : rest = [] := length_eq_zero_iff.mp (by omega)
      rw [hrest] at hb
      refine ⟨⟨fixed, session, suites, methods, none, h₁, h₂, h₃, h₄, h₅, h₆, h₇, nofun⟩, hb,
        ⟨nodup_nil, fun e he => absurd he (by simp [ClientHello.list])⟩, fun _ hname => ?_⟩
      rw [← ok.inj h] at hname
      exact absurd rfl hname
    · rw [if_neg hend] at h
      obtain ⟨hcut, h⟩ := except_failed h
      obtain ⟨hreach, h⟩ := except_failed h
      obtain ⟨s, hb'⟩ := exists_u16 hb hk (by omega)
      have hlength' := congrArg List.length hb'
      rw [length_append, length_append, u16_bytes_length] at hlength'
      obtain ⟨es, st, rfl, hrun, rfl⟩ := extension_loop_ok body.length _ s {} (at_ + 2) hb'
        (by rw [length_append, u16_bytes_length]; omega) (by omega) h
      have hu : u16 body at_ = (extension_list es).length := by omega
      rw [hu, append_assoc] at hb'
      have hlt : (extension_list es).length < 65536 := hu ▸ u16_lt body at_
      refine ⟨⟨fixed, session, suites, methods, some es, h₁, h₂, h₃, h₄, h₅, h₆, h₇,
        fun es' hes => Option.some.inj hes ▸ hlt⟩, hb', ⟨hrun.distinct.1, ?_⟩, ?_⟩
      · exact fun e he hzero => ⟨_, (hrun.found.1 e he hzero).2⟩
      intro hopen hname
      obtain ⟨e, he, hzero⟩ : ∃ e ∈ es, e.kind = 0 := by
        by_contra hnone
        push Not at hnone
        exact hname (hrun.found.2 hnone)
      have hfilter := filter_kind hrun.distinct.1 he
      rw [hzero] at hfilter
      refine ⟨⟨e, hfilter, (hrun.found.1 e he hzero).2⟩, fun e' he' => ?_⟩
      have hplain : (es.any fun e => ENCRYPTED e.kind) = false := by
        rw [← hopen, hrun.encrypted, Bool.false_or]
      exact any_eq_false.mp hplain e' he' |> Bool.eq_false_iff.mpr

end Cosmic.Wire
