import WgNx.ByteLayout

/-!
The four packed message records of `wg_internal.h`.

`ofBytes` is the pointer cast the C code applies to a receive buffer: it reads
the fields at their offsets and ignores whatever follows.  Integers are stored
little-endian, as on the target.
-/

namespace WgNx.WireMessages

open WgNx.ByteLayout

abbrev Key := ByteVec 32
abbrev Hash := ByteVec 32
abbrev Mac := ByteVec 16
abbrev Timestamp := ByteVec 12

def wgAeadTagLen : Nat := 16

def wgMsgHandshakeInit : UInt8 := 1
def wgMsgHandshakeResponse : UInt8 := 2
def wgMsgCookieReply : UInt8 := 3
def wgMsgTransport : UInt8 := 4

def putU32 (x : UInt32) : Bytes := (leBytes 4 x.toNat).toList

def getU32 (buf : Bytes) (off : Nat) : UInt32 :=
  UInt32.ofNat (leValue (field buf off 4).toList)

def putU64 (x : UInt64) : Bytes := (leBytes 8 x.toNat).toList

def getU64 (buf : Bytes) (off : Nat) : UInt64 :=
  UInt64.ofNat (leValue (field buf off 8).toList)

def getType (buf : Bytes) : UInt8 := buf.getD 0 0

@[simp] theorem putU32_length (x : UInt32) : (putU32 x).length = 4 := by
  simp [putU32]

@[simp] theorem putU64_length (x : UInt64) : (putU64 x).length = 8 := by
  simp [putU64]

theorem getU32_of_field {buf : Bytes} {off : Nat} {x : UInt32}
    (h : field buf off 4 = leBytes 4 x.toNat) : getU32 buf off = x := by
  rw [getU32, h, leValue_leBytes]
  apply UInt32.toNat_inj.mp
  simp

theorem getU64_of_field {buf : Bytes} {off : Nat} {x : UInt64}
    (h : field buf off 8 = leBytes 8 x.toNat) : getU64 buf off = x := by
  rw [getU64, h, leValue_leBytes]
  apply UInt64.toNat_inj.mp
  simp

structure WgHandshakeInit where
  type : UInt8
  reserved : ByteVec 3
  senderIndex : UInt32
  ephemeral : Key
  encryptedStatic : ByteVec 48
  encryptedTimestamp : ByteVec 28
  mac1 : Mac
  mac2 : Mac
  deriving DecidableEq

structure WgHandshakeResponse where
  type : UInt8
  reserved : ByteVec 3
  senderIndex : UInt32
  receiverIndex : UInt32
  ephemeral : Key
  encryptedNothing : ByteVec 16
  mac1 : Mac
  mac2 : Mac
  deriving DecidableEq

structure WgCookieReply where
  type : UInt8
  reserved : ByteVec 3
  receiverIndex : UInt32
  nonce : ByteVec 24
  encryptedCookie : ByteVec 32
  deriving DecidableEq

/-- `sizeof` of the records; the transport header has a flexible array behind it. -/
def sizeofInit : Nat := 148
def sizeofResponse : Nat := 92
def sizeofCookieReply : Nat := 64
def sizeofTransport : Nat := 16

namespace WgHandshakeInit

def toBytes (m : WgHandshakeInit) : Bytes :=
  [m.type] ++ (m.reserved.toList ++ (putU32 m.senderIndex ++
    (m.ephemeral.toList ++ (m.encryptedStatic.toList ++
      (m.encryptedTimestamp.toList ++ (m.mac1.toList ++ m.mac2.toList))))))

def ofBytes (buf : Bytes) : WgHandshakeInit where
  type := getType buf
  reserved := field buf 1 3
  senderIndex := getU32 buf 4
  ephemeral := field buf 8 32
  encryptedStatic := field buf 40 48
  encryptedTimestamp := field buf 88 28
  mac1 := field buf 116 16
  mac2 := field buf 132 16

@[simp] theorem toBytes_length (m : WgHandshakeInit) :
    m.toBytes.length = sizeofInit := by
  simp [toBytes, sizeofInit]

end WgHandshakeInit

namespace WgHandshakeResponse

def toBytes (m : WgHandshakeResponse) : Bytes :=
  [m.type] ++ (m.reserved.toList ++ (putU32 m.senderIndex ++
    (putU32 m.receiverIndex ++ (m.ephemeral.toList ++
      (m.encryptedNothing.toList ++ (m.mac1.toList ++ m.mac2.toList))))))

def ofBytes (buf : Bytes) : WgHandshakeResponse where
  type := getType buf
  reserved := field buf 1 3
  senderIndex := getU32 buf 4
  receiverIndex := getU32 buf 8
  ephemeral := field buf 12 32
  encryptedNothing := field buf 44 16
  mac1 := field buf 60 16
  mac2 := field buf 76 16

@[simp] theorem toBytes_length (m : WgHandshakeResponse) :
    m.toBytes.length = sizeofResponse := by
  simp [toBytes, sizeofResponse]

end WgHandshakeResponse

def WgCookieReply.ofBytes (buf : Bytes) : WgCookieReply where
  type := getType buf
  reserved := field buf 1 3
  receiverIndex := getU32 buf 4
  nonce := field buf 8 24
  encryptedCookie := field buf 32 32

/-- The cast reads back the record that was sent. -/
theorem WgHandshakeInit.ofBytes_toBytes (m : WgHandshakeInit) :
    ofBytes m.toBytes = m := by
  have hsender : getU32 m.toBytes 4 = m.senderIndex := by
    apply getU32_of_field
    simp (disch := simp) [toBytes, putU32, field_cons_of_pos,
      field_append_of_le, field_append_vec]
  have htype : getType m.toBytes = m.type := by
    simp [getType, toBytes]
  rcases m with ⟨type, reserved, sender, ephemeral, static, timestamp, mac1, mac2⟩
  simp only [ofBytes, hsender, htype]
  simp (disch := simp) [toBytes, field_cons_of_pos, field_append_of_le,
    field_append_vec]

theorem WgHandshakeResponse.ofBytes_toBytes (m : WgHandshakeResponse) :
    ofBytes m.toBytes = m := by
  have hsender : getU32 m.toBytes 4 = m.senderIndex := by
    apply getU32_of_field
    simp (disch := simp) [toBytes, putU32, field_cons_of_pos,
      field_append_of_le, field_append_vec]
  have hreceiver : getU32 m.toBytes 8 = m.receiverIndex := by
    apply getU32_of_field
    simp (disch := simp) [toBytes, putU32, field_cons_of_pos,
      field_append_of_le, field_append_vec]
  have htype : getType m.toBytes = m.type := by
    simp [getType, toBytes]
  rcases m with ⟨type, reserved, sender, receiver, ephemeral, nothing, mac1, mac2⟩
  simp only [ofBytes, hsender, hreceiver, htype]
  simp (disch := simp) [toBytes, field_cons_of_pos, field_append_of_le,
    field_append_vec]

end WgNx.WireMessages
