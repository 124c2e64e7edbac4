import VersionedTrie.Digest.Basic
import VersionedTrie.NodeKey.Basic

/-! # Errors

Every way in which an operation of the library fails, kept as its cause; `Error.message` gives the
text of each.
-/

set_option autoImplicit false

namespace VersionedTrie

inductive IoFault where
  | noSuchFile
  | isDirectory
  /-- A name, or a whole path, of more bytes than a file system takes. -/
  | nameTooLong
  /-- A path with a null character. -/
  | nullInPath
  /-- A read beyond the end of a file. -/
  | endOfFile
  /-- A file that should be text is not. -/
  | notText
  /-- Stored bytes are no compressed value. -/
  | notCompressed
  deriving DecidableEq, Repr

inductive LayoutDefect where
  | endOfInput
  | badVariant (tag : Nat)
  | badPresence (byte : UInt8)
  | badFlag (byte : UInt8)
  | trailingBytes
  deriving DecidableEq, Repr

/-- Why stored bytes, or a stored node, are not what they should be. -/
inductive NodeDefect where
  | layout (defect : LayoutDefect)
  | keyTooShort (size : Nat)
  | prefixOverruns (length rest : Nat)
  | keyNotNibbles
  | noChildren
  | leafNotNibbles
  | leafDigest (key : Path)
  | flaggedAsLeaf (key : NodeKey)
  | oddLeaf (key : NodeKey)
  deriving DecidableEq

inductive ProofDefect where
  | absent
  | noKey
  | noValue
  deriving DecidableEq, Repr

inductive KeyDefect where
  | empty
  | tooLong (size : Nat)
  | prefixTooLong (size : Nat)
  | prefixFixed
  /-- The key ends at a node that has children. -/
  | endsInside (key : Path)
  /-- One of the two keys is the first part of the other. -/
  | nested (stored given : Path)
  deriving DecidableEq

inductive StoreDefect where
  | anchorMismatch (root found : Digest)
  | recordOverrun
  | unknownRecord (tag : UInt8)
  | plannedRead
  | plannedWrite
  deriving DecidableEq

inductive FileDefect where
  | shortHeader
  | foreignMagic
  deriving DecidableEq, Repr

inductive SettingsDefect where
  | emptyQueue
  | prefixNotHex (error : HexError)
  | prefixTooLong (size : Nat)
  deriving DecidableEq, Repr

inductive Cutoff where
  | interrupted
  | timedOut
  deriving DecidableEq, Repr

inductive Error where
  | io (fault : IoFault)
  | json
  | anchorMissing (root : Digest)
  | nodeMissing (key : NodeKey)
  | corruptNode (defect : NodeDefect)
  | badProof (defect : ProofDefect)
  | invalidKey (defect : KeyDefect)
  | valueTooLong (size : Nat)
  | staleHandle
  | digestSize (size : Nat)
  | corruption (defect : StoreDefect)
  | invalidFile (defect : FileDefect)
  | versionMismatch (expected found : Nat)
  | settings (defect : SettingsDefect)
  | exportIncomplete (root : Digest) (cutoff : Cutoff)
  | reportMissing
  deriving DecidableEq

/-! ## Limits -/

/-- The encodings of nodes that updates make stay within 64 MiB. -/
def maxNodeSize : Nat := 64 * 1024 * 1024

def maxKeySize : Nat := 4096

/-- The longest value of an update: the encoding of its leaf stays within `maxNodeSize` whatever the
key. -/
def maxValueSize : Nat := maxNodeSize - 2 * maxKeySize - 64

def maxPrefixSize : Nat := 255

/-! ## Texts -/

def IoFault.message : IoFault → String
  | .noSuchFile => "No such file or directory (os error 2)"
  | .isDirectory => "Is a directory (os error 21)"
  | .nameTooLong => "File name too long (os error 36)"
  | .nullInPath => "file name contained an unexpected NUL byte"
  | .endOfFile => "failed to fill whole buffer"
  | .notText => "stream did not contain valid UTF-8"
  | .notCompressed => "Unknown frame descriptor"

def LayoutDefect.message : LayoutDefect → String
  | .endOfInput => "io error: unexpected end of file"
  | .badVariant tag =>
    "invalid value: integer \x60" ++ toString tag ++ "\x60, expected variant index 0 <= i < 2"
  | .badPresence byte => "tag for enum is not valid, found " ++ toString byte
  | .badFlag byte =>
    "invalid u8 while decoding bool, expected 0 or 1, found " ++ toString byte
  | .trailingBytes => "Slice had bytes remaining after deserialization"

def NodeDefect.message : NodeDefect → String
  | .layout defect => defect.message
  | .keyTooShort size => "node key of " ++ toString size ++ " bytes is too short"
  | .prefixOverruns length rest =>
    "node key prefix length " ++ toString length ++ " overruns " ++ toString rest ++ " bytes"
  | .keyNotNibbles => "node key path holds a non-nibble"
  | .noChildren => "internal node without children"
  | .leafNotNibbles => "leaf key holds a non-nibble"
  | .leafDigest key => "leaf hash mismatch for key " ++ key.display
  | .flaggedAsLeaf key => "child " ++ key.display ++ " is flagged as a leaf but is internal"
  | .oddLeaf key => "leaf at " ++ key.display ++ " has an odd-length key"

def ProofDefect.message : ProofDefect → String
  | .absent => "no proof supplied"
  | .noKey => "proof carries no key"
  | .noValue => "proof carries no value"

def KeyDefect.message : KeyDefect → String
  | .empty => "empty key"
  | .tooLong size => "key of " ++ toString size ++ " bytes exceeds " ++ toString maxKeySize
  | .prefixTooLong size =>
    "tree prefix of " ++ toString size ++ " bytes exceeds " ++ toString maxPrefixSize
  | .prefixFixed => "cannot change the prefix of a non-empty trie"
  | .endsInside key => "key " ++ key.display ++ " is a prefix of stored keys"
  | .nested stored given =>
    "keys " ++ stored.display ++ " and " ++ given.display ++ " are prefixes of one another"

def StoreDefect.message : StoreDefect → String
  | .anchorMismatch root found =>
    "root anchor " ++ root.hex ++ " points at a node hashing to " ++ found.hex
  | .recordOverrun => "frame record overruns payload"
  | .unknownRecord tag => "unknown record tag " ++ toString tag
  | .plannedRead => "injected read fault"
  | .plannedWrite => "injected write fault"

def FileDefect.message : FileDefect → String
  | .shortHeader => "file shorter than header"
  | .foreignMagic => "Invalid magic bytes"

def SettingsDefect.message : SettingsDefect → String
  | .emptyQueue => "iterator.queue_capacity must be at least 1"
  | .prefixNotHex error => "tree_prefix is not hex: " ++ error.message
  | .prefixTooLong size =>
    "tree_prefix is " ++ toString size ++ " bytes, at most " ++ toString maxPrefixSize ++ " allowed"

def Cutoff.message : Cutoff → String
  | .interrupted => "interrupted"
  | .timedOut => "timed out"

def Error.message : Error → String
  | .io fault => "IO error: " ++ fault.message
  | .json => "JSON error: malformed document"
  | .anchorMissing root => "Not found: root anchor " ++ root.hex
  | .nodeMissing key => "Not found: node " ++ key.display
  | .corruptNode defect => "Corrupt node: " ++ defect.message
  | .badProof defect => "Bad proof: " ++ defect.message
  | .invalidKey defect => "Invalid key: " ++ defect.message
  | .valueTooLong size =>
    "Invalid value: value of " ++ toString size ++ " bytes exceeds " ++ toString maxValueSize
  | .staleHandle => "Trie handle was committed; reload it from the new root hash"
  | .digestSize size => "Invalid hash: expected 32 bytes, got " ++ toString size
  | .corruption defect => "Corruption detected: " ++ defect.message
  | .invalidFile defect => "Invalid store file: " ++ defect.message
  | .versionMismatch expected found =>
    "Version mismatch: expected " ++ toString expected ++ ", found " ++ toString found
  | .settings defect => "Config error: " ++ defect.message
  | .exportIncomplete root cutoff =>
    "Iteration incomplete: export of " ++ root.hex ++ " " ++ cutoff.message
  | .reportMissing => "Iteration incomplete: worker exited without reporting"

end VersionedTrie
