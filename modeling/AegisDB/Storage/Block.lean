import AegisDB.Library.Bytes

/-!
# Storage blocks

The blocks of `block.rs` and their bytes: the length of the header, the header, the length of the
data, the data.  The header is written field by field with fixed widths, an enumeration as the
number of its variant.
-/

namespace AegisDB

namespace Storage

/-- Errors of the storage engine. -/
inductive AegisError
  | blockNotFound (id : UInt64)
  | corruption (message : String)
  | serialization
  /-- A call that does not fit the state of its transaction. -/
  | transaction (message : String)
  | io
  | storage (message : String)
  | resourceExhausted (message : String)
  deriving DecidableEq

abbrev BlockId := UInt64

/-- Classification of storage block contents. -/
inductive BlockType
  | tableData
  | timeSeriesData
  | documentData
  | indexData
  | logEntry
  | metadata
  deriving DecidableEq

/-- Compression algorithm for stored data. -/
inductive CompressionType
  | none
  | lz4
  | zstd
  | snappy
  deriving DecidableEq

/-- Encryption algorithm for data at rest. -/
inductive EncryptionType
  | none
  | aes256Gcm
  deriving DecidableEq

/-- The number of a variant. -/
def BlockType.index : BlockType → ℕ
  | tableData => 0
  | timeSeriesData => 1
  | documentData => 2
  | indexData => 3
  | logEntry => 4
  | metadata => 5

/-- The variant of a number. -/
def BlockType.ofIndex : ℕ → Option BlockType
  | 0 => some tableData
  | 1 => some timeSeriesData
  | 2 => some documentData
  | 3 => some indexData
  | 4 => some logEntry
  | 5 => some metadata
  | _ => Option.none

/-- The number of a variant. -/
def CompressionType.index : CompressionType → ℕ
  | none => 0
  | lz4 => 1
  | zstd => 2
  | snappy => 3

/-- The variant of a number. -/
def CompressionType.ofIndex : ℕ → Option CompressionType
  | 0 => some none
  | 1 => some lz4
  | 2 => some zstd
  | 3 => some snappy
  | _ => Option.none

def EncryptionType.index : EncryptionType → ℕ
  | none => 0
  | aes256Gcm => 1

def EncryptionType.ofIndex : ℕ → Option EncryptionType
  | 0 => some none
  | 1 => some aes256Gcm
  | _ => Option.none

/-- Header containing block metadata. -/
structure BlockHeader where
  blockId : BlockId
  blockType : BlockType
  compression : CompressionType := .none
  encryption : EncryptionType := .none
  dataSize : UInt32 := 0
  uncompressedSize : UInt32 := 0
  checksum : UInt32 := 0
  version : UInt16 := 1
  flags : UInt16 := 0
  deriving DecidableEq

namespace BlockHeader

def encodedLength : ℕ := 36

/-- Serialize header to bytes. -/
def toBytes (h : BlockHeader) : Bytes :=
  le 8 h.blockId.toNat ++
    (le 4 h.blockType.index ++
      (le 4 h.compression.index ++
        (le 4 h.encryption.index ++
          (le 4 h.dataSize.toNat ++
            (le 4 h.uncompressedSize.toNat ++
              (le 4 h.checksum.toNat ++
                (le 2 h.version.toNat ++ le 2 h.flags.toNat)))))))

/-- Deserialize header from bytes; what follows it is ignored. -/
def fromBytes (bytes : Bytes) : Except AegisError BlockHeader :=
  if bytes.length < encodedLength then .error .serialization
  else
    let (blockId, buf) := getLe 8 bytes
    let (blockType, buf) := getLe 4 buf
    let (compression, buf) := getLe 4 buf
    let (encryption, buf) := getLe 4 buf
    let (dataSize, buf) := getLe 4 buf
    let (uncompressedSize, buf) := getLe 4 buf
    let (checksum, buf) := getLe 4 buf
    let (version, buf) := getLe 2 buf
    let (flags, _) := getLe 2 buf
    match BlockType.ofIndex blockType, CompressionType.ofIndex compression,
      EncryptionType.ofIndex encryption with
    | some blockType, some compression, some encryption =>
      .ok
        { blockId := UInt64.ofNat blockId
          blockType := blockType
          compression := compression
          encryption := encryption
          dataSize := UInt32.ofNat dataSize
          uncompressedSize := UInt32.ofNat uncompressedSize
          checksum := UInt32.ofNat checksum
          version := UInt16.ofNat version
          flags := UInt16.ofNat flags }
    | _, _, _ => .error .serialization

end BlockHeader

/-- A storage block containing header and data. -/
structure Block where
  header : BlockHeader
  data : Bytes
  deriving DecidableEq

namespace Block

def toBytes (b : Block) : Bytes :=
  le 4 b.header.toBytes.length ++ (b.header.toBytes ++ (le 4 b.data.length ++ b.data))

/-- Deserialize a block from bytes. -/
def fromBytes (bytes : Bytes) : Except AegisError Block :=
  if bytes.length < 8 then .error (.corruption "Block too small")
  else
    let (headerLen, buf) := getLe 4 bytes
    if bytes.length < 4 + headerLen + 4 then .error (.corruption "Block header truncated")
    else
      match BlockHeader.fromBytes (buf.take headerLen) with
      | .error e => .error e
      | .ok header =>
        let dataOffset := 4 + headerLen
        let (dataLen, buf) := getLe 4 (buf.drop headerLen)
        if bytes.length < dataOffset + 4 + dataLen then
          .error (.corruption "Block data truncated")
        else .ok { header := header, data := buf.take dataLen }

end Block

end Storage

end AegisDB
