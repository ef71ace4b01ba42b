import RustBase.Net.SocketPosix
import RustBase.Support.ByteOrder
import Mathlib.Data.List.TakeDrop

/-!
# Net — socket addresses

The `sockaddr` that `syscall_bind`, `syscall_connect` and `start_connect` build of a `SocketAddr`,
and the `SocketAddr` that `getsockname_addr` makes of one.  What the kernel gets is the structure in
memory (`Sockaddr.bytes`), in the byte order of the host.

The three agree on every IPv4 address and on the IPv6 addresses without flowinfo and scope
(`encodes_iff`): `syscall_bind` and `syscall_connect` leave these out, `start_connect` passes them
on and `getsockname_addr` reads them.
-/

namespace RustNet
open Support

/-- `[u8; n]`. -/
def Octets (n : ℕ) : Type := { l : List UInt8 // l.length = n }

instance (n : ℕ) : DecidableEq (Octets n) := inferInstanceAs (DecidableEq (Subtype _))

inductive SocketAddr where
  | v4 (ip : Octets 4) (port : UInt16)
  | v6 (ip : Octets 16) (port : UInt16) (flowinfo scopeId : UInt32)
  deriving DecidableEq

/-! ### The structures of libc -/

def afInet : UInt16 := 2

def afInet6 : UInt16 := 10

structure SockaddrIn where
  sinFamily : UInt16
  sinPort : UInt16
  sinAddr : UInt32
  sinZero : Octets 8

structure SockaddrIn6 where
  sin6Family : UInt16
  sin6Port : UInt16
  sin6Flowinfo : UInt32
  sin6Addr : Octets 16
  sin6ScopeId : UInt32

inductive Sockaddr where
  | inet (sa : SockaddrIn)
  | inet6 (sa : SockaddrIn6)

/-- The structure in memory. -/
def Sockaddr.bytes (e : Endian) : Sockaddr → List UInt8
  | .inet sa =>
      e.bytes 2 sa.sinFamily.toNat ++ (e.bytes 2 sa.sinPort.toNat ++
        (e.bytes 4 sa.sinAddr.toNat ++ sa.sinZero.1))
  | .inet6 sa =>
      e.bytes 2 sa.sin6Family.toNat ++ (e.bytes 2 sa.sin6Port.toNat ++
        (e.bytes 4 sa.sin6Flowinfo.toNat ++ (sa.sin6Addr.1 ++ e.bytes 4 sa.sin6ScopeId.toNat)))

/-! ### Encoding -/

/-- `to_be` and `from_be` of a `u16`. -/
def toBe16 (e : Endian) (x : UInt16) : UInt16 := .ofNat (e.toBe 2 x.toNat)

/-- `to_be` and `from_be` of a `u32`. -/
def toBe32 (e : Endian) (x : UInt32) : UInt32 := .ofNat (e.toBe 4 x.toNat)

/-- `u32::from` of an IPv4 address. -/
def ipv4ToU32 (ip : Octets 4) : UInt32 := .ofNat (ofBeBytes ip.1)

/-- `Ipv4Addr::from` of a `u32`. -/
def ipv4OfU32 (x : UInt32) : Octets 4 := ⟨beBytes 4 x.toNat, length_beBytes _ _⟩

/-- What `syscall_bind` and `syscall_connect` build. -/
def syscallSockaddr (e : Endian) : SocketAddr → Sockaddr
  | .v4 ip port =>
      .inet
        { sinFamily := afInet
          sinPort := toBe16 e port
          sinAddr := toBe32 e (ipv4ToU32 ip)
          sinZero := ⟨List.replicate 8 0, rfl⟩ }
  | .v6 ip port _ _ =>
      .inet6
        { sin6Family := afInet6
          sin6Port := toBe16 e port
          sin6Flowinfo := 0
          sin6Addr := ip
          sin6ScopeId := 0 }

/-- The address passed to `bind`. -/
def syscallBind : Endian → SocketAddr → Sockaddr := syscallSockaddr

/-- The address passed to `connect`. -/
def syscallConnect : Endian → SocketAddr → Sockaddr := syscallSockaddr

/-- The address that `start_connect` passes to `connect`. -/
def startConnect (e : Endian) : SocketAddr → Sockaddr
  | .v4 ip port =>
      .inet
        { sinFamily := afInet
          sinPort := toBe16 e port
          -- `u32::from_ne_bytes`
          sinAddr := .ofNat (e.ofBytes ip.1)
          sinZero := ⟨List.replicate 8 0, rfl⟩ }
  | .v6 ip port flowinfo scopeId =>
      .inet6
        { sin6Family := afInet6
          sin6Port := toBe16 e port
          sin6Flowinfo := flowinfo
          sin6Addr := ip
          sin6ScopeId := scopeId }

def encoders : List (Endian → SocketAddr → Sockaddr) :=
  [syscallBind, syscallConnect, startConnect]

/-! ### Decoding -/

/-- A `sockaddr_storage` that the kernel has written a `sockaddr` to. -/
def storage (m : List UInt8) : List UInt8 := m ++ List.replicate (128 - m.length) 0

/-- The `n` bytes from `off` on. -/
def field (m : List UInt8) (off n : ℕ) : Octets n :=
  ⟨(m.drop off).takeD n 0, List.takeD_length n _ 0⟩

inductive SocknameError where
  | os (errno : Errno)
  | other (text : String)
  deriving DecidableEq

/-- What `getsockname_addr` makes of the answer of `getsockname`. -/
def getsocknameAddr (e : Endian) : Except Errno (List UInt8) → Except SocknameError SocketAddr
  | .error errno => .error (.os errno)
  | .ok m =>
      let u16 off : UInt16 := .ofNat (e.ofBytes (field m off 2).1)
      let u32 off : UInt32 := .ofNat (e.ofBytes (field m off 4).1)
      if u16 0 = afInet then .ok (.v4 (ipv4OfU32 (toBe32 e (u32 4))) (toBe16 e (u16 2)))
      else if u16 0 = afInet6 then
        .ok (.v6 (field m 8 16) (toBe16 e (u16 2)) (u32 4) (u32 24))
      else
        let other := (u16 0).toNat
        .error (.other s!"unexpected address family {other}")

/-! ### The property -/

/-- The address family, the port and the bytes of the address. -/
def SocketAddr.family : SocketAddr → UInt16
  | .v4 _ _ => afInet
  | .v6 _ _ _ _ => afInet6

def SocketAddr.port : SocketAddr → UInt16
  | .v4 _ port | .v6 _ port _ _ => port

def SocketAddr.octets : SocketAddr → List UInt8
  | .v4 ip _ => ip.1
  | .v6 ip _ _ _ => ip.1

/-- Where the bytes of the address are. -/
def SocketAddr.offset : SocketAddr → ℕ
  | .v4 _ _ => 4
  | .v6 _ _ _ _ => 8

/-- The encoders build the same `sockaddr`, with the port in network order, and it can be read
back. -/
structure Encodes (e : Endian) (a : SocketAddr) : Prop where
  same : ∀ f ∈ encoders, ∀ g ∈ encoders, (f e a).bytes e = (g e a).bytes e
  family : ∀ f ∈ encoders, (field ((f e a).bytes e) 0 2).1 = e.bytes 2 a.family.toNat
  port : ∀ f ∈ encoders, (field ((f e a).bytes e) 2 2).1 = beBytes 2 a.port.toNat
  address : ∀ f ∈ encoders, (field ((f e a).bytes e) a.offset a.octets.length).1 = a.octets
  back : getsocknameAddr e (.ok (storage ((syscallBind e a).bytes e))) = .ok a

/-- The address has no flowinfo and no scope. -/
def SocketAddr.Plain : SocketAddr → Prop
  | .v4 _ _ => True
  | .v6 _ _ flowinfo scopeId => flowinfo = 0 ∧ scopeId = 0

/-! ### The image of an address

What an address looks like in memory.  `start_connect` builds it, and `syscall_bind` and
`syscall_connect` build that of the address without flowinfo and scope.
-/

namespace SocketAddr

def image (e : Endian) : SocketAddr → List UInt8
  | .v4 ip port =>
      e.bytes 2 afInet.toNat ++ (beBytes 2 port.toNat ++ (ip.1 ++ List.replicate 8 0))
  | .v6 ip port flowinfo scopeId =>
      e.bytes 2 afInet6.toNat ++ (beBytes 2 port.toNat ++
        (e.bytes 4 flowinfo.toNat ++ (ip.1 ++ e.bytes 4 scopeId.toNat)))

/-- The address without flowinfo and scope. -/
def stripped : SocketAddr → SocketAddr
  | .v4 ip port => .v4 ip port
  | .v6 ip port _ _ => .v6 ip port 0 0

theorem stripped_eq_iff {a : SocketAddr} : a.stripped = a ↔ a.Plain := by
  cases a with
  | v4 ip port => exact ⟨fun _ => trivial, fun _ => rfl⟩
  | v6 ip port flowinfo scopeId => simp [stripped, Plain, eq_comm]

end SocketAddr

section Words

variable (e : Endian)

theorem toNat_toBe16 (x : UInt16) : (toBe16 e x).toNat = e.toBe 2 x.toNat := by
  have h := e.toBe_lt (w := 2) x.toNat_lt
  rw [toBe16, UInt16.toNat_ofNat']
  exact Nat.mod_eq_of_lt h

theorem toNat_toBe32 (x : UInt32) : (toBe32 e x).toNat = e.toBe 4 x.toNat := by
  have h := e.toBe_lt (w := 4) x.toNat_lt
  rw [toBe32, UInt32.toNat_ofNat']
  exact Nat.mod_eq_of_lt h

theorem toNat_ofNat16 {l : List UInt8} (h : l.length = 2) :
    (UInt16.ofNat (e.ofBytes l)).toNat = e.ofBytes l := by
  have := e.ofBytes_lt h
  rw [UInt16.toNat_ofNat']
  exact Nat.mod_eq_of_lt this

theorem toNat_ofNat32 {l : List UInt8} (h : l.length = 4) :
    (UInt32.ofNat (e.ofBytes l)).toNat = e.ofBytes l := by
  have := e.ofBytes_lt h
  rw [UInt32.toNat_ofNat']
  exact Nat.mod_eq_of_lt this

theorem toNat_ipv4ToU32 (ip : Octets 4) : (ipv4ToU32 ip).toNat = ofBeBytes ip.1 := by
  have := ofBeBytes_lt ip.2
  rw [ipv4ToU32, UInt32.toNat_ofNat']
  exact Nat.mod_eq_of_lt this

end Words

/-! ### Encoding is the image -/

section Encode

variable (e : Endian) (a : SocketAddr)

theorem bytes_toBe16 (port : UInt16) : e.bytes 2 (toBe16 e port).toNat = beBytes 2 port.toNat := by
  rw [toNat_toBe16, e.bytes_toBe]

theorem bytes_startConnect : (startConnect e a).bytes e = a.image e := by
  cases a with
  | v4 ip port =>
      simp only [startConnect, Sockaddr.bytes, SocketAddr.image, bytes_toBe16,
        toNat_ofNat32 e ip.2, e.bytes_ofBytes ip.2]
  | v6 ip port flowinfo scopeId =>
      simp only [startConnect, Sockaddr.bytes, SocketAddr.image, bytes_toBe16]

theorem bytes_syscallSockaddr : (syscallSockaddr e a).bytes e = a.stripped.image e := by
  cases a with
  | v4 ip port =>
      simp only [syscallSockaddr, Sockaddr.bytes, SocketAddr.image, SocketAddr.stripped,
        bytes_toBe16, toNat_toBe32, toNat_ipv4ToU32, e.bytes_toBe, beBytes_of_length ip.2]
  | v6 ip port flowinfo scopeId =>
      simp only [syscallSockaddr, Sockaddr.bytes, SocketAddr.image, SocketAddr.stripped,
        bytes_toBe16]

/-- Each encoder builds the image of the address, or of the address stripped. -/
theorem bytes_encoder {f : Endian → SocketAddr → Sockaddr} (hf : f ∈ encoders) :
    (f e a).bytes e = a.image e ∨ (f e a).bytes e = a.stripped.image e := by
  simp only [encoders, List.mem_cons, List.not_mem_nil, or_false] at hf
  rcases hf with rfl | rfl | rfl
  · exact .inr (bytes_syscallSockaddr e a)
  · exact .inr (bytes_syscallSockaddr e a)
  · exact .inl (bytes_startConnect e a)

end Encode

/-! ### Decoding is its inverse -/

theorem field_eq {m b : List UInt8} {off n : ℕ} (x y : List UInt8) (hm : m = x ++ (b ++ y))
    (hx : x.length = off) (hb : b.length = n) : (field m off n).1 = b := by
  subst hm hx
  change (List.drop x.length (x ++ (b ++ y))).takeD n 0 = b
  rw [List.drop_left, List.takeD_left' hb]

section Decode

variable (e : Endian)

theorem field_family (a : SocketAddr) (tail : List UInt8) :
    (field (a.image e ++ tail) 0 2).1 = e.bytes 2 a.family.toNat := by
  cases a with
  | v4 ip port =>
      refine field_eq [] (beBytes 2 port.toNat ++ (ip.1 ++ List.replicate 8 0) ++ tail) ?_ rfl
        (e.length_bytes ..)
      simp only [SocketAddr.image, SocketAddr.family, List.append_assoc, List.nil_append]
  | v6 ip port flowinfo scopeId =>
      refine field_eq [] (beBytes 2 port.toNat ++
        (e.bytes 4 flowinfo.toNat ++ (ip.1 ++ e.bytes 4 scopeId.toNat)) ++ tail) ?_ rfl
        (e.length_bytes ..)
      simp only [SocketAddr.image, SocketAddr.family, List.append_assoc, List.nil_append]

theorem field_port (a : SocketAddr) (tail : List UInt8) :
    (field (a.image e ++ tail) 2 2).1 = beBytes 2 a.port.toNat := by
  cases a with
  | v4 ip port =>
      refine field_eq (e.bytes 2 afInet.toNat) (ip.1 ++ List.replicate 8 0 ++ tail) ?_
        (e.length_bytes ..) (length_beBytes ..)
      simp only [SocketAddr.image, SocketAddr.port, List.append_assoc]
  | v6 ip port flowinfo scopeId =>
      refine field_eq (e.bytes 2 afInet6.toNat)
        (e.bytes 4 flowinfo.toNat ++ (ip.1 ++ e.bytes 4 scopeId.toNat) ++ tail) ?_
        (e.length_bytes ..) (length_beBytes ..)
      simp only [SocketAddr.image, SocketAddr.port, List.append_assoc]

theorem field_octets (a : SocketAddr) (tail : List UInt8) :
    (field (a.image e ++ tail) a.offset a.octets.length).1 = a.octets := by
  cases a with
  | v4 ip port =>
      refine field_eq (e.bytes 2 afInet.toNat ++ beBytes 2 port.toNat)
        (List.replicate 8 0 ++ tail) ?_ ?_ rfl
      · simp only [SocketAddr.image, SocketAddr.octets, List.append_assoc]
      · simp [SocketAddr.offset]
  | v6 ip port flowinfo scopeId =>
      refine field_eq (e.bytes 2 afInet6.toNat ++ beBytes 2 port.toNat ++
        e.bytes 4 flowinfo.toNat) (e.bytes 4 scopeId.toNat ++ tail) ?_ ?_ rfl
      · simp only [SocketAddr.image, SocketAddr.octets, List.append_assoc]
      · simp [SocketAddr.offset]

theorem field_flowinfo (ip : Octets 16) (port : UInt16) (flowinfo scopeId : UInt32)
    (tail : List UInt8) :
    (field ((SocketAddr.v6 ip port flowinfo scopeId).image e ++ tail) 4 4).1 =
      e.bytes 4 flowinfo.toNat := by
  refine field_eq (e.bytes 2 afInet6.toNat ++ beBytes 2 port.toNat)
    (ip.1 ++ e.bytes 4 scopeId.toNat ++ tail) ?_ ?_ (e.length_bytes ..)
  · simp only [SocketAddr.image, List.append_assoc]
  · simp

theorem field_scopeId (ip : Octets 16) (port : UInt16) (flowinfo scopeId : UInt32)
    (tail : List UInt8) :
    (field ((SocketAddr.v6 ip port flowinfo scopeId).image e ++ tail) 24 4).1 =
      e.bytes 4 scopeId.toNat := by
  refine field_eq (e.bytes 2 afInet6.toNat ++ beBytes 2 port.toNat ++
    e.bytes 4 flowinfo.toNat ++ ip.1) tail ?_ ?_ (e.length_bytes ..)
  · simp only [SocketAddr.image, List.append_assoc]
  · simp [ip.2]

theorem ofBytes_bytes16 (x : UInt16) : UInt16.ofNat (e.ofBytes (e.bytes 2 x.toNat)) = x := by
  rw [e.ofBytes_bytes (w := 2) x.toNat_lt, UInt16.ofNat_toNat]

theorem ofBytes_bytes32 (x : UInt32) : UInt32.ofNat (e.ofBytes (e.bytes 4 x.toNat)) = x := by
  rw [e.ofBytes_bytes (w := 4) x.toNat_lt, UInt32.ofNat_toNat]

/-- `from_be` of a port in network order. -/
theorem toBe16_ofBytes (x : UInt16) :
    toBe16 e (UInt16.ofNat (e.ofBytes (beBytes 2 x.toNat))) = x := by
  apply UInt16.toNat_inj.mp
  rw [toNat_toBe16, toNat_ofNat16 e (length_beBytes ..), ← e.bytes_toBe,
    e.ofBytes_bytes (e.toBe_lt (w := 2) x.toNat_lt), e.toBe_toBe (w := 2) x.toNat_lt]

/-- `from_be` of the octets of an address. -/
theorem toBe32_ofBytes (ip : Octets 4) :
    ipv4OfU32 (toBe32 e (UInt32.ofNat (e.ofBytes ip.1))) = ip := by
  apply Subtype.ext
  change beBytes 4 _ = ip.1
  rw [toNat_toBe32, toNat_ofNat32 e ip.2, ← e.bytes_toBe,
    e.toBe_toBe (e.ofBytes_lt ip.2), e.bytes_ofBytes ip.2]

/-- What has the image of an address is read as the address. -/
theorem getsocknameAddr_image (a : SocketAddr) (tail : List UInt8) :
    getsocknameAddr e (.ok (a.image e ++ tail)) = .ok a := by
  have family : UInt16.ofNat (e.ofBytes (field (a.image e ++ tail) 0 2).1) = a.family := by
    rw [field_family, ofBytes_bytes16]
  have port : toBe16 e (UInt16.ofNat (e.ofBytes (field (a.image e ++ tail) 2 2).1)) = a.port := by
    rw [field_port, toBe16_ofBytes]
  cases a with
  | v4 ip p =>
      have addr : (field ((SocketAddr.v4 ip p).image e ++ tail) 4 4).1 = ip.1 := by
        have := field_octets e (.v4 ip p) tail
        rwa [SocketAddr.octets, ip.2] at this
      simp only [getsocknameAddr, family, port, addr, toBe32_ofBytes]
      rfl
  | v6 ip p flowinfo scopeId =>
      have addr : field ((SocketAddr.v6 ip p flowinfo scopeId).image e ++ tail) 8 16 = ip := by
        apply Subtype.ext
        have := field_octets e (.v6 ip p flowinfo scopeId) tail
        rwa [SocketAddr.octets, ip.2] at this
      simp only [getsocknameAddr, family, port, addr, field_flowinfo, field_scopeId,
        ofBytes_bytes32]
      rfl

theorem image_injective {a b : SocketAddr} (h : a.image e = b.image e) : a = b := by
  have ha := getsocknameAddr_image e a []
  rw [h, getsocknameAddr_image] at ha
  cases ha
  rfl

end Decode

/-- **Socket addresses.**  They are encoded alike and read back, on every host, exactly when they
have no flowinfo and no scope. -/
theorem encodes_iff (e : Endian) (a : SocketAddr) : Encodes e a ↔ a.Plain := by
  have bind : syscallBind ∈ encoders := List.mem_cons_self
  have start : startConnect ∈ encoders :=
    List.mem_cons_of_mem _ (List.mem_cons_of_mem _ List.mem_cons_self)
  rw [← SocketAddr.stripped_eq_iff]
  constructor
  · intro h
    have same := h.same _ bind _ start
    rw [bytes_startConnect] at same
    exact image_injective e ((bytes_syscallSockaddr e a).symm.trans same)
  · intro ha
    have image : ∀ f ∈ encoders, (f e a).bytes e = a.image e := by
      intro f hf
      rcases bytes_encoder e a hf with h | h
      · exact h
      · rw [h, ha]
    have whole : a.image e = a.image e ++ [] := (List.append_nil _).symm
    refine ⟨fun f hf g hg => ?_, fun f hf => ?_, fun f hf => ?_, fun f hf => ?_, ?_⟩
    · rw [image f hf, image g hg]
    · rw [image f hf, whole]
      exact field_family e a []
    · rw [image f hf, whole]
      exact field_port e a []
    · rw [image f hf, whole]
      exact field_octets e a []
    · rw [image _ bind]
      exact getsocknameAddr_image e a _

/-- `fe80::1%2`, port 80: `syscall_bind` drops the scope. -/
theorem linkLocal_not_encoded :
    let a : SocketAddr :=
      .v6 ⟨[0xfe, 0x80, 0, 0, 0, 0, 0, 0, 0, 0, 0, 0, 0, 0, 0, 1], rfl⟩ 80 0 2
    ∀ e, ¬ Encodes e a ∧ (syscallBind e a).bytes e ≠ (startConnect e a).bytes e ∧
      getsocknameAddr e (.ok (storage ((syscallBind e a).bytes e))) = .ok a.stripped := by
  intro a e
  have hne : (syscallBind e a).bytes e ≠ (startConnect e a).bytes e := by
    cases e <;> decide
  refine ⟨fun h => hne (h.same _ List.mem_cons_self _ ?_), hne, ?_⟩
  · exact List.mem_cons_of_mem _ (List.mem_cons_of_mem _ List.mem_cons_self)
  · cases e <;> decide +kernel

end RustNet
