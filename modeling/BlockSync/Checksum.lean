import BlockSync.Digest.Sha256

/-! Checksums are the first eight bytes of a SHA-256 digest, written in decimal. A block's content
checksum covers its lines; its self checksum covers the path of its file too. -/

namespace BlockSync.Checksum

open Text.Utf8 (Bytes encode)

/-- Stands for the checksum of a block without content. -/
def absent : Text := "No checksum"

def valueOf (bytes : Bytes) : Nat :=
  bytes.foldl (fun n b => 256 * n + b.toNat) 0

def ofBytes (message : Bytes) : Text :=
  Text.ofNat (valueOf ((Digest.Sha256.digest message).take 8))

def content (lines : List Text) : Text :=
  if lines = [] then absent else ofBytes (lines.flatMap encode)

def self (lines : List Text) (relative : Text) : Text :=
  ofBytes (lines.flatMap encode ++ 0 :: encode relative)

end BlockSync.Checksum
