/-
The SOCKS5 messages: what a reader is done with is a whole message and nothing else, and the messages
of a client and a server are read by the other as they were meant.
-/
import Cosmic.Relay.SocksRead

set_option autoImplicit false

namespace Cosmic.Wire

open Cosmic.Base List Except

/-- A text of 1 to 255 bytes, whose length is one byte. -/
structure Short (w : Bytes) : Prop where
  pos : 1 ≤ w.length
  le : w.length ≤ 255

def length_byte (w : Bytes) : UInt8 := UInt8.ofNat w.length

variable {w : Bytes}

theorem length_byte_toNat (h : w.length ≤ 255) : (length_byte w).toNat = w.length := by
  unfold length_byte
  rw [UInt8.toNat_ofNat']
  omega

theorem length_byte_eq {b : UInt8} (h : w.length = b.toNat) : length_byte w = b := by
  unfold length_byte
  rw [h, UInt8.ofNat_toNat]

theorem Short.of_byte {b : UInt8} (h : w.length = b.toNat) (hb : b.toNat ≠ 0) : Short w := by
  have hlt := b.toNat_lt
  constructor
  · omega
  · omega

/-! ## The greeting -/

def method_of (password : Bool) : UInt8 := if password then 2 else 0

inductive Greeting (password : Bool) : Bytes → SocksGreeting → Prop where
  | mk {methods : Bytes} (short : Short methods) (offered : method_of password ∈ methods) :
      Greeting password (5 :: length_byte methods :: methods)
        { status := .done, consumed := 2 + methods.length
          method := some (method_of password).toNat }

variable {password : Bool} {m : Bytes}

theorem read_greeting_message {a : SocksGreeting} (h : Greeting password m a) (rest : Bytes) :
    read_greeting (m ++ rest) password = a ∧ a.consumed = m.length := by
  cases h with
  | @mk methods short offered =>
    refine ⟨?_, (Nat.add_comm _ _ : 2 + methods.length = methods.length + 2)⟩
    have hpos := short.pos
    have hlen : (5 :: length_byte methods :: methods ++ rest).length = 2 + methods.length + rest.length := by
      simp
      omega
    have h₁ : byte_at (5 :: length_byte methods :: methods ++ rest) 1 = 5 := rfl
    have h₂ : (byte_at (5 :: length_byte methods :: methods ++ rest) 2).toNat = methods.length :=
      length_byte_toNat short.le
    have hsub : sub (5 :: length_byte methods :: methods ++ rest) 3 (2 + methods.length) = methods :=
      sub_middle [5, length_byte methods] methods rest rfl rfl
    unfold read_greeting
    rw [if_neg (by omega), h₁, if_neg (by simp), if_neg (by omega), h₂, if_neg (by omega),
      if_neg (by omega), hsub]
    exact if_pos offered

variable {buf : Bytes}

theorem read_greeting_done (h : (read_greeting buf password).Done) :
    ∃ m a rest, Greeting password m a ∧ buf = m ++ rest := by
  obtain ⟨-, h⟩ := of_need h (by simp [SocksGreeting.Done])
  obtain ⟨hversion, h⟩ := of_failed h (by simp [SocksGreeting.Done])
  obtain ⟨h₂, h⟩ := of_need h (by simp [SocksGreeting.Done])
  obtain ⟨hcount, h⟩ := of_failed h (by simp [SocksGreeting.Done])
  obtain ⟨hlen, h⟩ := of_need h (by simp [SocksGreeting.Done])
  obtain ⟨hmem, -⟩ := of_passed h (by simp [SocksGreeting.Done])
  -- the version, the count, the methods and what follows them
  obtain ⟨b₁, s, rfl⟩ := exists_cons (by omega : 1 ≤ buf.length)
  obtain ⟨b₂, t, rfl⟩ := exists_cons (by simpa using h₂ : 1 ≤ s.length)
  have hcounted : 2 + b₂.toNat ≤ t.length + 1 + 1 := hlen
  obtain ⟨methods, rest, rfl, hmethods⟩ := exists_split (by omega : b₂.toNat ≤ t.length)
  have hb₁ : b₁ = 5 := not_not.mp hversion
  have hshort : Short methods := .of_byte hmethods hcount
  have hsub : sub (b₁ :: b₂ :: (methods ++ rest)) 3 (2 + b₂.toNat) = methods :=
    sub_middle [b₁, b₂] methods rest rfl (by rw [hmethods]; rfl)
  refine ⟨_, _, rest, .mk hshort ?_, ?_⟩
  · rwa [← hsub]
  · rw [hb₁, length_byte_eq hmethods]
    rfl

/-! ## The username and password -/

inductive Auth : Bytes → SocksAuth → Prop where
  | mk {user password : Bytes} (hu : Short user) (hp : Short password) :
      Auth (1 :: length_byte user :: (user ++ length_byte password :: password))
        { status := .done, consumed := 3 + user.length + password.length
          username := some user, password := some password }

theorem read_auth_message {a : SocksAuth} (h : Auth m a) (rest : Bytes) :
    read_auth (m ++ rest) = a ∧ a.consumed = m.length := by
  cases h with
  | @mk user password hu hp =>
    have hupos := hu.pos
    have hppos := hp.pos
    constructor
    · generalize hbuf : 1 :: length_byte user :: (user ++ length_byte password :: password) ++ rest = buf
      -- the message taken apart at each of its fields
      have hbuf₁ : buf = [1, length_byte user] ++ (user ++ length_byte password :: (password ++ rest)) := by
        rw [← hbuf]
        simp
      have hbuf₂ : buf = 1 :: length_byte user :: user ++ length_byte password :: (password ++ rest) := by
        rw [hbuf₁]
        simp
      have hbuf₃ : buf = 1 :: length_byte user :: (user ++ [length_byte password]) ++ (password ++ rest) := by
        rw [hbuf₁]
        simp
      have hlen : buf.length = 3 + user.length + password.length + rest.length := by
        rw [hbuf₁]
        simp
        omega
      have h₁ : byte_at buf 1 = 1 := by
        rw [hbuf₁]
        rfl
      have h₂ : (byte_at buf 2).toNat = user.length := by
        rw [hbuf₁]
        exact length_byte_toNat hu.le
      have h₃ : (byte_at buf (3 + user.length)).toNat = password.length := by
        rw [hbuf₂, byte_at_middle _ _ _ (by simp; omega)]
        exact length_byte_toNat hp.le
      have husub : sub buf 3 (2 + user.length) = user := by
        rw [hbuf₁]
        exact sub_middle _ _ _ rfl rfl
      have hpsub : sub buf (4 + user.length) (3 + user.length + password.length) = password := by
        rw [hbuf₃]
        exact sub_middle _ _ _ (by simp; omega) (by simp; omega)
      unfold read_auth
      rw [if_neg (by omega), h₁, if_neg (by simp), if_neg (by omega), h₂, if_neg (by omega),
        if_neg (by omega), h₃, if_neg (by omega), if_neg (by omega), husub, hpsub]
    · simp
      omega

theorem read_auth_done (h : (read_auth buf).Done) : ∃ m a rest, Auth m a ∧ buf = m ++ rest := by
  obtain ⟨-, h⟩ := of_need h (by simp [SocksAuth.Done])
  obtain ⟨hversion, h⟩ := of_failed h (by simp [SocksAuth.Done])
  obtain ⟨h₂, h⟩ := of_need h (by simp [SocksAuth.Done])
  obtain ⟨hulen, h⟩ := of_failed h (by simp [SocksAuth.Done])
  obtain ⟨h₃, h⟩ := of_need h (by simp [SocksAuth.Done])
  obtain ⟨hplen, h⟩ := of_failed h (by simp [SocksAuth.Done])
  obtain ⟨h₄, -⟩ := of_need h (by simp [SocksAuth.Done])
  obtain ⟨b₁, s, rfl⟩ := exists_cons (by omega : 1 ≤ buf.length)
  obtain ⟨b₂, t, rfl⟩ := exists_cons (by simpa using h₂ : 1 ≤ s.length)
  have hcounted : 2 + b₂.toNat + 1 ≤ t.length + 1 + 1 := h₃
  obtain ⟨user, t', rfl, huser⟩ := exists_split (by omega : b₂.toNat ≤ t.length)
  rw [length_append] at hcounted
  obtain ⟨b₃, t'', rfl⟩ := exists_cons (by omega : 1 ≤ t'.length)
  have hb₃ : byte_at (b₁ :: b₂ :: (user ++ b₃ :: t'')) (3 + (byte_at (b₁ :: b₂ ::
      (user ++ b₃ :: t'')) 2).toNat) = b₃ := by
    show byte_at (b₁ :: b₂ :: user ++ b₃ :: t'') (3 + b₂.toNat) = b₃
    exact byte_at_middle _ _ _ (by simp; omega)
  rw [hb₃] at hplen h₄
  have hlast : 3 + b₂.toNat + b₃.toNat ≤ (user ++ b₃ :: t'').length + 1 + 1 := h₄
  rw [length_append, length_cons] at hlast
  obtain ⟨password, rest, rfl, hpassword⟩ := exists_split (by omega : b₃.toNat ≤ t''.length)
  have hb₁ : b₁ = 1 := not_not.mp hversion
  refine ⟨_, _, rest, .mk (.of_byte huser hulen) (.of_byte hpassword hplen), ?_⟩
  rw [hb₁, length_byte_eq huser, length_byte_eq hpassword]
  simp

/-! ## The request -/

def port_bytes (port : ℕ) : Bytes := [UInt8.ofNat (port / 256), UInt8.ofNat (port % 256)]

/-- A host as a request has it: the address type and what follows it, the host it is read as, and the
kind. -/
inductive Address : Bytes → Bytes → Kind → Prop where
  | ipv4 {four : Bytes} (h : four.length = 4) : Address (1 :: four) (Grant.dotted four) .ipv4
  | ipv6 (six : Grant.Sixteen) : Address (4 :: six.1) (Grant.ipv6_text six) .ipv6
  | name {text n : Bytes} (short : Short text) (h : Grant.name text = .ok n) :
      Address (3 :: length_byte text :: text) n .name

inductive Request : Bytes → SocksRequest → Prop where
  | mk {address host : Bytes} {kind : Kind} {port : ℕ} (ha : Address address host kind)
      (h₁ : 1 ≤ port) (h₂ : port ≤ 65535) :
      Request (5 :: 1 :: 0 :: (address ++ port_bytes port))
        { status := .done, consumed := 5 + address.length, host := some host, kind := some kind
          port := some port }

variable {b₁ b₂ b₃ : UInt8}

theorem ipv6_request_groups {b₄ : UInt8} (six : Grant.Sixteen) (rest : Bytes) :
    ipv6 (request_groups (b₁ :: b₂ :: b₃ :: b₄ :: (six.1 ++ rest))) = .ok (Grant.ipv6_text six) := by
  have hgroups : request_groups (b₁ :: b₂ :: b₃ :: b₄ :: (six.1 ++ rest)) =
      concat (lit ":") ((Grant.words six.1).map hex) := by
    obtain ⟨bytes, h⟩ := six
    match bytes, h with
    | [a, b, c, d, e, f, g, h, i, j, k, l, m, n, o, p], _ =>
      simp only [Grant.words, Grant.word_eq]
      rfl
  have hlen : (Grant.words six.1).length = 8 := Grant.words_length six.2
  have hlt : ∀ g ∈ Grant.words six.1, g < 65536 := fun g => Grant.words_lt
  rw [hgroups]
  apply ipv6_of_address (Grant.parse6_whole hlen hlt).2.1
  rw [Grant.address_whole hlen hlt]
  exact congrArg some (Grant.group_bytes_words (show six.1.length = 2 * 8 from six.2))

section

variable {b₁ b₂ b₃ : UInt8}

theorem byte_at_four (b : UInt8) (s : Bytes) : byte_at (b₁ :: b₂ :: b₃ :: b :: s) 4 = b := rfl

theorem request_host_ipv4 {four : Bytes} (h : four.length = 4) (rest : Bytes) :
    request_host (b₁ :: b₂ :: b₃ :: 1 :: (four ++ rest)) = .ok (Grant.dotted four, .ipv4, 9) := by
  match four, h with
  | [a, b, c, d], _ =>
    unfold request_host
    rw [byte_at_four, if_pos rfl, if_neg (by simp)]
    rfl

theorem request_host_ipv6 (six : Grant.Sixteen) (rest : Bytes) :
    request_host (b₁ :: b₂ :: b₃ :: 4 :: (six.1 ++ rest)) = .ok (Grant.ipv6_text six, .ipv6, 21) := by
  unfold request_host
  rw [byte_at_four, if_neg (by decide), if_pos rfl, if_neg (by simp; omega), ipv6_request_groups]

theorem request_host_name {text : Bytes} (short : Short text) (rest : Bytes) : (∀ n, Grant.name text = .ok n →
      request_host (b₁ :: b₂ :: b₃ :: 3 :: length_byte text :: (text ++ rest)) = .ok (n, .name, 6 + text.length)) ∧
    ∀ why, Grant.name text = .error why → request_host (b₁ :: b₂ :: b₃ :: 3 :: length_byte text :: (text ++ rest)) =
        .error (socks_refused .failure why) := by
  have hpos := short.pos
  have hcount : (byte_at (b₁ :: b₂ :: b₃ :: 3 :: length_byte text :: (text ++ rest)) 5).toNat =
      text.length := length_byte_toNat short.le
  have hsub : sub (b₁ :: b₂ :: b₃ :: 3 :: length_byte text :: (text ++ rest)) 6 (5 + text.length) =
      text := sub_middle [b₁, b₂, b₃, 3, length_byte text] text rest rfl (by simp)
  unfold request_host
  rw [byte_at_four, if_neg (by decide), if_neg (by decide), if_pos rfl, if_neg (by simp), hcount,
    if_neg (by omega), if_neg (by simp; omega), hsub]
  constructor
  · intro n h
    rw [h]
  · intro why h
    rw [h]

theorem request_host_ok {t host : Bytes} {kind : Kind} {at_ : ℕ} (ht : 1 ≤ t.length)
    (h : request_host (b₁ :: b₂ :: b₃ :: t) = .ok (host, kind, at_)) :
    ∃ address rest, Address address host kind ∧ t = address ++ rest ∧ at_ = 4 + address.length := by
  obtain ⟨b₄, u, rfl⟩ := exists_cons ht
  have hread := h
  unfold request_host at h
  dsimp only at h
  rw [byte_at_four] at h
  split at h
  · next h₁ =>
    split at h
    · cases h
    · next hlen =>
      obtain ⟨four, rest, rfl, hfour⟩ := exists_split (by simp at hlen; omega : 4 ≤ u.length)
      rw [h₁, request_host_ipv4 hfour] at hread
      obtain ⟨rfl, rfl, rfl⟩ := hread
      exact ⟨_, rest, .ipv4 hfour, by rw [h₁]; rfl, by rw [length_cons, hfour]⟩
  · split at h
    · next h₄ =>
      split at h
      · cases h
      · next hlen =>
        obtain ⟨six, rest, rfl, hsix⟩ := exists_split (by simp at hlen; omega : 16 ≤ u.length)
        rw [h₄, request_host_ipv6 ⟨six, hsix⟩] at hread
        obtain ⟨rfl, rfl, rfl⟩ := hread
        exact ⟨_, rest, .ipv6 ⟨six, hsix⟩, by rw [h₄]; rfl, by rw [length_cons, hsix]⟩
    · split at h
      · next h₃ =>
        split at h
        · cases h
        next hfive =>
        obtain ⟨b₅, v, rfl⟩ := exists_cons (by simp at hfive; omega : 1 ≤ u.length)
        split at h
        · cases h
        next hcount =>
        split at h
        · cases h
        next hlen =>
        have hcounted : 5 + b₅.toNat ≤ v.length + 1 + 1 + 1 + 1 + 1 := Nat.le_of_not_lt hlen
        obtain ⟨text, rest, rfl, htext⟩ := exists_split (by omega : b₅.toNat ≤ v.length)
        have hshort : Short text := .of_byte htext hcount
        have hname := @request_host_name b₁ b₂ b₃ text hshort rest
        rw [length_byte_eq htext] at hname
        rw [h₃] at hread
        cases hn : Grant.name text with
        | error why =>
          rw [hname.2 why hn] at hread
          cases hread
        | ok n =>
          rw [hname.1 n hn] at hread
          obtain ⟨rfl, rfl, rfl⟩ := hread
          refine ⟨_, rest, .name hshort hn, ?_, ?_⟩
          · rw [h₃, length_byte_eq htext]
            rfl
          · rw [length_cons, length_cons]
            omega
      · cases h

theorem request_host_address {address host : Bytes} {kind : Kind} (h : Address address host kind) (rest : Bytes) :
    request_host (b₁ :: b₂ :: b₃ :: (address ++ rest)) = .ok (host, kind, 4 + address.length) := by
  cases h with
  | ipv4 h =>
    rw [cons_append, request_host_ipv4 h, length_cons, h]
  | ipv6 six =>
    rw [cons_append, request_host_ipv6 six, length_cons, six.2]
  | @name text n short h =>
    rw [cons_append, cons_append, (request_host_name short rest).1 _ h, length_cons,
      length_cons, show 4 + (text.length + 1 + 1) = 6 + text.length by omega]

end

variable {a : SocksRequest}

/-- What comes before a request's address. -/
theorem read_request_error {t : Bytes} (ht : 1 ≤ t.length) (h : request_host (5 :: 1 :: 0 :: t) = .error a) :
    read_request (5 :: 1 :: 0 :: t) = a := by
  have hlen : (5 :: 1 :: 0 :: t : Bytes).length = t.length + 3 := rfl
  have h₁ : byte_at (5 :: 1 :: 0 :: t) 1 = 5 := rfl
  have h₂ : byte_at (5 :: 1 :: 0 :: t) 2 = 1 := rfl
  have h₃ : byte_at (5 :: 1 :: 0 :: t) 3 = 0 := rfl
  unfold read_request
  rw [if_neg (by omega), h₁, if_neg (by simp), if_neg (by omega), h₂, if_neg (by simp),
    if_neg (by omega), h₃, if_neg (by simp), if_neg (by omega), h]

theorem port_bytes_toNat {port : ℕ} (h : port ≤ 65535) :
    (UInt8.ofNat (port / 256)).toNat * 256 + (UInt8.ofNat (port % 256)).toNat = port := by
  rw [UInt8.toNat_ofNat', UInt8.toNat_ofNat']
  omega

theorem read_request_message (h : Request m a) (rest : Bytes) :
    read_request (m ++ rest) = a ∧ a.consumed = m.length := by
  cases h with
  | @mk address host kind port ha hport₁ hport₂ =>
    constructor
    · have hhost := @request_host_address 5 1 0 address host kind ha (port_bytes port ++ rest)
      generalize hbuf : 5 :: 1 :: 0 :: (address ++ (port_bytes port ++ rest)) = buf at hhost
      have hwhole : 5 :: 1 :: 0 :: (address ++ port_bytes port) ++ rest = buf := by
        rw [← hbuf, cons_append, cons_append, cons_append, append_assoc]
      have hlen : buf.length = address.length + 5 + rest.length := by
        rw [← hbuf]
        simp [port_bytes]
        omega
      have h₁ : byte_at buf 1 = 5 := by
        rw [← hbuf]
        rfl
      have h₂ : byte_at buf 2 = 1 := by
        rw [← hbuf]
        rfl
      have h₃ : byte_at buf 3 = 0 := by
        rw [← hbuf]
        rfl
      have hbig : byte_at buf (4 + address.length) = UInt8.ofNat (port / 256) := by
        rw [← hbuf]
        exact byte_at_middle (5 :: 1 :: 0 :: address) _ _ (by simp; omega)
      have hsmall : byte_at buf (4 + address.length + 1) = UInt8.ofNat (port % 256) := by
        have hsplit : buf = 5 :: 1 :: 0 :: (address ++ [UInt8.ofNat (port / 256)]) ++
            UInt8.ofNat (port % 256) :: rest := by
          rw [← hbuf]
          simp [port_bytes]
        rw [hsplit]
        exact byte_at_middle _ _ _ (by simp; omega)
      rw [hwhole]
      unfold read_request
      rw [if_neg (by omega), h₁, if_neg (by simp), if_neg (by omega), h₂, if_neg (by simp),
        if_neg (by omega), h₃, if_neg (by simp), if_neg (by omega), hhost]
      dsimp only
      rw [if_neg (by omega), hbig, hsmall, port_bytes_toNat hport₂, if_neg (by omega),
        show 4 + address.length + 1 = 5 + address.length by omega]
    · simp [port_bytes]
      omega

theorem request_host_error (h : request_host buf = .error a) : ¬a.Done ∧ a.consumed = 0 := by
  unfold request_host at h
  dsimp only at h
  have hmore : ∀ {β : Type}, (.error { status := .more, consumed := 0 } : Except SocksRequest β) =
      .error a → ¬a.Done ∧ a.consumed = 0 := fun h => error.inj h ▸ by
    simp [SocksRequest.Done]
  have hrefused : ∀ {β : Type} {reply : SocksReply} {why : Bytes},
      (.error (socks_refused reply why) : Except SocksRequest β) = .error a → ¬a.Done ∧ a.consumed = 0 := fun h =>
    error.inj h ▸ by simp [SocksRequest.Done, socks_refused]
  split at h
  · split at h
    · exact hmore h
    · cases h
  split at h
  · split at h
    · exact hmore h
    · split at h
      · exact hrefused h
      · cases h
  · split at h
    · split at h
      · exact hmore h
      split at h
      · exact hrefused h
      · split at h
        · exact hmore h
        · split at h
          · exact hrefused h
          · cases h
    · exact hrefused h

theorem port_bytes_eq (p₁ p₂ : UInt8) : port_bytes (p₁.toNat * 256 + p₂.toNat) = [p₁, p₂] := by
  have hlt := p₂.toNat_lt
  unfold port_bytes
  rw [show (p₁.toNat * 256 + p₂.toNat) / 256 = p₁.toNat by omega,
    show (p₁.toNat * 256 + p₂.toNat) % 256 = p₂.toNat by omega, UInt8.ofNat_toNat, UInt8.ofNat_toNat]

theorem read_request_done (h : (read_request buf).Done) : ∃ m a rest, Request m a ∧ buf = m ++ rest := by
  obtain ⟨-, h⟩ := of_need h (by simp [SocksRequest.Done])
  obtain ⟨h₁, h⟩ := of_failed h (by simp [SocksRequest.Done, socks_refused])
  obtain ⟨-, h⟩ := of_need h (by simp [SocksRequest.Done])
  obtain ⟨h₂, h⟩ := of_failed h (by simp [SocksRequest.Done, socks_refused])
  obtain ⟨-, h⟩ := of_need h (by simp [SocksRequest.Done])
  obtain ⟨h₃, h⟩ := of_failed h (by simp [SocksRequest.Done, socks_refused])
  obtain ⟨h₄, h⟩ := of_need h (by simp [SocksRequest.Done])
  obtain ⟨b₁, t₁, rfl⟩ := exists_cons (by omega : 1 ≤ buf.length)
  obtain ⟨b₂, t₂, rfl⟩ := exists_cons (by simp at h₄; omega : 1 ≤ t₁.length)
  obtain ⟨b₃, t, rfl⟩ := exists_cons (by simp at h₄; omega : 1 ≤ t₂.length)
  have hb₁ : b₁ = 5 := not_not.mp h₁
  have hb₂ : b₂ = 1 := not_not.mp h₂
  have hb₃ : b₃ = 0 := not_not.mp h₃
  have ht : 1 ≤ t.length := by
    simp at h₄
    omega
  rw [hb₁, hb₂, hb₃] at h ⊢
  cases hr : request_host (5 :: 1 :: 0 :: t) with
  | error a =>
    rw [hr] at h
    exact absurd h (request_host_error hr).1
  | ok found =>
    obtain ⟨host, kind, at_⟩ := found
    rw [hr] at h
    obtain ⟨hlen, h⟩ := of_need h (by simp [SocksRequest.Done])
    obtain ⟨hport, -⟩ := of_failed h (by simp [SocksRequest.Done, socks_refused])
    obtain ⟨address, rest, ha, rfl, rfl⟩ := request_host_ok ht hr
    have hrest : 2 ≤ rest.length := by
      simp at hlen
      omega
    obtain ⟨p₁, rest', rfl⟩ := exists_cons (by omega : 1 ≤ rest.length)
    obtain ⟨p₂, rest, rfl⟩ := exists_cons (by simp at hrest; omega : 1 ≤ rest'.length)
    have hbig : byte_at (5 :: 1 :: 0 :: (address ++ p₁ :: p₂ :: rest)) (4 + address.length) = p₁ :=
      byte_at_middle (5 :: 1 :: 0 :: address) _ _ (by simp; omega)
    have hsmall : byte_at (5 :: 1 :: 0 :: (address ++ p₁ :: p₂ :: rest)) (4 + address.length + 1) = p₂ := by
      rw [show 5 :: 1 :: 0 :: (address ++ p₁ :: p₂ :: rest) = 5 :: 1 :: 0 :: (address ++ [p₁]) ++ p₂ :: rest by simp]
      exact byte_at_middle _ _ _ (by simp; omega)
    rw [hbig, hsmall] at hport
    have h₁ := p₁.toNat_lt
    have h₂ := p₂.toNat_lt
    refine ⟨_, _, rest, @Request.mk address host kind (p₁.toNat * 256 + p₂.toNat) ha (by omega) (by omega), ?_⟩
    rw [port_bytes_eq]
    simp

/-! ## What a server answers -/

inductive MethodAnswer (password : Bool) : Bytes → SocksMethodAnswer → Prop where
  | mk : MethodAnswer password [5, method_of password]
      { status := .done, consumed := 2, method := some (method_of password).toNat }

theorem read_method_answer_message {a : SocksMethodAnswer} (h : MethodAnswer password m a) (rest : Bytes) :
    read_method_answer (m ++ rest) password = a ∧ a.consumed = m.length := by
  cases h with
  | mk =>
    refine ⟨?_, rfl⟩
    have hlen : (5 :: method_of password :: rest).length = rest.length + 2 := rfl
    show read_method_answer (5 :: method_of password :: rest) password = _
    unfold read_method_answer
    rw [if_neg (by omega), if_neg (show ¬byte_at _ 1 ≠ 5 from not_not.mpr rfl), if_neg (by omega)]
    exact if_pos rfl

theorem read_method_answer_done (h : (read_method_answer buf password).Done) :
    ∃ m a rest, MethodAnswer password m a ∧ buf = m ++ rest := by
  obtain ⟨-, h⟩ := of_need h (by simp [SocksMethodAnswer.Done])
  obtain ⟨h₁, h⟩ := of_failed h (by simp [SocksMethodAnswer.Done])
  obtain ⟨h₂, h⟩ := of_need h (by simp [SocksMethodAnswer.Done])
  obtain ⟨hmethod, -⟩ := of_passed h (by
    split
    · simp [SocksMethodAnswer.Done]
    · simp [SocksMethodAnswer.Done])
  obtain ⟨b₁, s, rfl⟩ := exists_cons (by omega : 1 ≤ buf.length)
  obtain ⟨b₂, t, rfl⟩ := exists_cons (by simpa using h₂ : 1 ≤ s.length)
  have hb₁ : b₁ = 5 := not_not.mp h₁
  have hb₂ : b₂ = method_of password := hmethod
  exact ⟨_, _, t, .mk, by rw [hb₁, hb₂]; rfl⟩

inductive AuthAnswer : Bytes → SocksAuthAnswer → Prop where
  | mk (verdict : UInt8) : AuthAnswer [1, verdict]
      { status := .done, consumed := 2, accepted := some (verdict == 0) }

theorem read_auth_answer_message {a : SocksAuthAnswer} (h : AuthAnswer m a) (rest : Bytes) :
    read_auth_answer (m ++ rest) = a ∧ a.consumed = m.length := by
  cases h with
  | mk verdict =>
    refine ⟨?_, rfl⟩
    have hlen : (1 :: verdict :: rest).length = rest.length + 2 := rfl
    show read_auth_answer (1 :: verdict :: rest) = _
    unfold read_auth_answer
    rw [if_neg (by omega), if_neg (show ¬byte_at _ 1 ≠ 1 from not_not.mpr rfl), if_neg (by omega)]
    rfl

theorem read_auth_answer_done (h : (read_auth_answer buf).Done) : ∃ m a rest, AuthAnswer m a ∧ buf = m ++ rest := by
  obtain ⟨-, h⟩ := of_need h (by simp [SocksAuthAnswer.Done])
  obtain ⟨h₁, h⟩ := of_failed h (by simp [SocksAuthAnswer.Done])
  obtain ⟨h₂, -⟩ := of_need h (by simp [SocksAuthAnswer.Done])
  obtain ⟨b₁, s, rfl⟩ := exists_cons (by omega : 1 ≤ buf.length)
  obtain ⟨b₂, t, rfl⟩ := exists_cons (by simpa using h₂ : 1 ≤ s.length)
  have hb₁ : b₁ = 1 := not_not.mp h₁
  exact ⟨_, _, t, .mk b₂, by rw [hb₁]; rfl⟩

/-- A bound address as an answer has it: the address type and what follows it. -/
inductive Bound : Bytes → Prop where
  | ipv4 {four : Bytes} (h : four.length = 4) : Bound (1 :: four)
  | ipv6 {six : Bytes} (h : six.length = 16) : Bound (4 :: six)
  | name {text : Bytes} (h : text.length ≤ 255) : Bound (3 :: length_byte text :: text)

inductive Answer : Bytes → SocksAnswer → Prop where
  | mk {bound : Bytes} (code p₁ p₂ : UInt8) (h : Bound bound) :
      Answer (5 :: code :: 0 :: (bound ++ [p₁, p₂]))
        { status := .done, consumed := 5 + bound.length, code := some code.toNat
          reply := SOCKS_REPLIES code }

theorem answer_width_bound {bound : Bytes} (h : Bound bound) (rest : Bytes) :
    ∃ width, answer_width (b₁ :: b₂ :: b₃ :: (bound ++ rest)) = .ok width ∧ width + 1 = bound.length := by
  cases h with
  | @ipv4 four h =>
    refine ⟨4, ?_, by rw [length_cons, h]⟩
    unfold answer_width
    rw [cons_append, byte_at_four, if_pos rfl]
  | @ipv6 six h =>
    refine ⟨16, ?_, by rw [length_cons, h]⟩
    unfold answer_width
    dsimp only
    rw [cons_append, byte_at_four, if_neg (by decide), if_pos rfl]
  | @name text h =>
    refine ⟨1 + text.length, ?_, by rw [length_cons, length_cons, Nat.add_comm 1]⟩
    have hcount : (byte_at (b₁ :: b₂ :: b₃ :: 3 :: length_byte text :: (text ++ rest)) 5).toNat =
        text.length := length_byte_toNat h
    unfold answer_width
    rw [cons_append, cons_append, byte_at_four, if_neg (by decide), if_neg (by decide),
      if_pos rfl, if_neg (by simp), hcount]

theorem answer_width_error {a : SocksAnswer} (h : answer_width buf = .error a) : ¬a.Done ∧ a.consumed = 0 := by
  unfold answer_width at h
  dsimp only at h
  split at h
  · cases h
  split at h
  · cases h
  split at h
  · split at h
    · rw [← error.inj h]
      simp [SocksAnswer.Done]
    · cases h
  · rw [← error.inj h]
    simp [SocksAnswer.Done]

theorem answer_width_ok {b₄ : UInt8} {t : Bytes} {width : ℕ}
    (h : answer_width (b₁ :: b₂ :: b₃ :: b₄ :: t) = .ok width) (hlen : width + 2 ≤ t.length) :
    ∃ bound rest, Bound bound ∧ b₄ :: t = bound ++ rest ∧ 2 ≤ rest.length := by
  unfold answer_width at h
  dsimp only at h
  rw [byte_at_four] at h
  split at h
  · next h₁ =>
    have hw : 4 = width := ok.inj h
    obtain ⟨four, rest, rfl, hfour⟩ := exists_split (by omega : 4 ≤ t.length)
    rw [length_append] at hlen
    exact ⟨1 :: four, rest, .ipv4 hfour, by rw [h₁]; rfl, by omega⟩
  · split at h
    · next h₄ =>
      have hw : 16 = width := ok.inj h
      obtain ⟨six, rest, rfl, hsix⟩ := exists_split (by omega : 16 ≤ t.length)
      rw [length_append] at hlen
      exact ⟨4 :: six, rest, .ipv6 hsix, by rw [h₄]; rfl, by omega⟩
    · split at h
      · next h₃ =>
        split at h
        · cases h
        obtain ⟨b₅, u, rfl⟩ := exists_cons (by omega : 1 ≤ t.length)
        have hw : 1 + b₅.toNat = width := ok.inj h
        have hlt := b₅.toNat_lt
        rw [length_cons] at hlen
        obtain ⟨text, rest, rfl, htext⟩ := exists_split (by omega : b₅.toNat ≤ u.length)
        rw [length_append] at hlen
        refine ⟨3 :: length_byte text :: text, rest, .name (by omega), ?_, by omega⟩
        rw [h₃, length_byte_eq htext]
        rfl
      · cases h

theorem read_answer_message {a : SocksAnswer} (h : Answer m a) (rest : Bytes) :
    read_answer (m ++ rest) = a ∧ a.consumed = m.length := by
  cases h with
  | @mk bound code p₁ p₂ h =>
    refine ⟨?_, by simp; omega⟩
    obtain ⟨width, hwidth, hbound⟩ := @answer_width_bound 5 code 0 bound h (p₁ :: p₂ :: rest)
    generalize hbuf : 5 :: code :: 0 :: (bound ++ p₁ :: p₂ :: rest) = buf at hwidth
    have hwhole : 5 :: code :: 0 :: (bound ++ [p₁, p₂]) ++ rest = buf := by
      rw [← hbuf]
      simp
    have hlen : buf.length = bound.length + 5 + rest.length := by
      rw [← hbuf]
      simp
      omega
    have h₁ : byte_at buf 1 = 5 := by
      rw [← hbuf]
      rfl
    have h₂ : byte_at buf 2 = code := by
      rw [← hbuf]
      rfl
    have h₃ : byte_at buf 3 = 0 := by
      rw [← hbuf]
      rfl
    rw [hwhole]
    unfold read_answer
    rw [if_neg (by omega), h₁, if_neg (by simp), if_neg (by omega), h₃, if_neg (by simp), if_neg (by omega), hwidth]
    dsimp only
    rw [if_neg (by omega), h₂, show 4 + width + 2 = 5 + bound.length by omega]

theorem read_answer_done (h : (read_answer buf).Done) : ∃ m a rest, Answer m a ∧ buf = m ++ rest := by
  obtain ⟨-, h⟩ := of_need h (by simp [SocksAnswer.Done])
  obtain ⟨h₁, h⟩ := of_failed h (by simp [SocksAnswer.Done])
  obtain ⟨-, h⟩ := of_need h (by simp [SocksAnswer.Done])
  obtain ⟨h₃, h⟩ := of_failed h (by simp [SocksAnswer.Done])
  obtain ⟨h₄, h⟩ := of_need h (by simp [SocksAnswer.Done])
  obtain ⟨b₁, t₁, rfl⟩ := exists_cons (by omega : 1 ≤ buf.length)
  obtain ⟨code, t₂, rfl⟩ := exists_cons (by simp at h₄; omega : 1 ≤ t₁.length)
  obtain ⟨b₃, t₃, rfl⟩ := exists_cons (by simp at h₄; omega : 1 ≤ t₂.length)
  obtain ⟨atyp, t, rfl⟩ := exists_cons (by simpa using h₄ : 1 ≤ t₃.length)
  have hb₁ : b₁ = 5 := not_not.mp h₁
  have hb₃ : b₃ = 0 := not_not.mp h₃
  cases hw : answer_width (b₁ :: code :: b₃ :: atyp :: t) with
  | error a =>
    rw [hw] at h
    exact absurd h (answer_width_error hw).1
  | ok width =>
    rw [hw] at h
    obtain ⟨hlen, -⟩ := of_need h (by simp [SocksAnswer.Done])
    have htotal : 4 + width + 2 ≤ t.length + 1 + 1 + 1 + 1 := hlen
    obtain ⟨bound, rest, hbound, ht, hrest⟩ := answer_width_ok hw (by omega)
    obtain ⟨p₁, rest', rfl⟩ := exists_cons (by omega : 1 ≤ rest.length)
    obtain ⟨p₂, rest, rfl⟩ := exists_cons (by simpa using hrest : 1 ≤ rest'.length)
    refine ⟨_, _, rest, .mk code p₁ p₂ hbound, ?_⟩
    rw [ht, hb₁, hb₃]
    simp

end Cosmic.Wire
