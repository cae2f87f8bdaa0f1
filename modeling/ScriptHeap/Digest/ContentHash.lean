import ScriptHeap.NameMap
import ScriptHeap.Digest.Sha256
/-!
# Content hashes

* `ContentHash`        the name of an algorithm and a digest, written `algorithm:hex`;
* `ContentHash.parse?` the hash that a text spells;
* `ContentHash.sorted` hashes in the order of their texts, without repetition;
* `HashDomain`         what is hashed: each domain puts bytes of its own before the data;
* `contentHash`        the SHA-256 hash of data in a domain.
-/

namespace ScriptHeap

/-- at least one character, and no colon -/
def HashPart (cs : List Char) : Prop := cs ≠ [] ∧ ':' ∉ cs

instance (cs : List Char) : Decidable (HashPart cs) := inferInstanceAs (Decidable (_ ∧ _))

/-- an algorithm and its digest, both without a colon and not empty -/
structure ContentHash where
  algorithm : String
  hex : String
  algorithm_part : HashPart algorithm.toList
  hex_part : HashPart hex.toList
deriving DecidableEq

namespace ContentHash

def text (h : ContentHash) : String := h.algorithm ++ ":" ++ h.hex

/-- the hash of an algorithm and a digest given as characters -/
def ofParts? (algorithm hex : List Char) : Option ContentHash :=
  if h : HashPart algorithm ∧ HashPart hex then
    some ⟨String.ofList algorithm, String.ofList hex, by simpa using h.1, by simpa using h.2⟩
  else none

def parse? (s : String) : Option ContentHash :=
  match s.toList.dropWhile (· != ':') with
  | [] => none
  | _ :: hex => ofParts? (s.toList.takeWhile (· != ':')) hex

def sorted (l : List ContentHash) : List ContentHash :=
  (Entries.ofList (l.map fun h => (h.text, h))).map Prod.snd

end ContentHash

/-! ## hexadecimal text -/

def hexByte (b : UInt8) : List Char := [Nat.digitChar (b.toNat / 16), Nat.digitChar (b.toNat % 16)]

def hexChars (bytes : List UInt8) : List Char := bytes.flatMap hexByte

theorem digitChar_ne_colon {n : Nat} (h : n < 16) : Nat.digitChar n ≠ ':' := by
  have : ∀ m : Fin 16, Nat.digitChar m ≠ ':' := by decide
  exact this ⟨n, h⟩

theorem hashPart_hexChars {bytes : List UInt8} (h : bytes ≠ []) : HashPart (hexChars bytes) := by
  constructor
  · cases bytes with
    | nil => exact absurd rfl h
    | cons b rest => simp [hexChars, hexByte]
  · intro hc
    obtain ⟨b, _, hb⟩ := List.mem_flatMap.mp hc
    have hlt := b.toNat_lt
    rcases List.mem_cons.mp hb with h1 | h1
    · exact digitChar_ne_colon (by omega) h1.symm
    · exact digitChar_ne_colon (by omega) (List.mem_singleton.mp h1).symm

/-! ## domains -/

/-- what a hash is of -/
inductive HashDomain where
  | heap
  | corpus
  | tree
deriving DecidableEq

namespace HashDomain

/-- the text before the data, closed by a zero byte -/
def tag : HashDomain → String
  | heap => "CELERYSCRIPT::HEAP::V1\x00"
  | corpus => "CELERYSCRIPT::CORPUS::V1\x00"
  | tree => "CELERYSCRIPT::AST::V1\x00"

def bytes (d : HashDomain) : List UInt8 := d.tag.toUTF8.toList

end HashDomain

def contentHash (domain : HashDomain) (data : List UInt8) : ContentHash where
  algorithm := "sha256"
  hex := String.ofList (hexChars (Sha256.digest (domain.bytes ++ data)))
  algorithm_part := by decide
  hex_part := by
    rw [String.toList_ofList]
    exact hashPart_hexChars fun h => by
      have := congrArg List.length h
      rw [Sha256.length_digest] at this
      simp at this

end ScriptHeap
