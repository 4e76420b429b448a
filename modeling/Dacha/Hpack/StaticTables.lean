import Mathlib
import Dacha.Lib.MsbBits
import Dacha.Compression.Huffman

/-!
# HPACK's static tables and Huffman code (`http/src/hpack/static_tables.rs`)

| here | there |
| --- | --- |
| `HeaderField` | `HeaderField` and `HeaderFieldRef` (`header_field.rs:9-22`) |
| `STATIC_TABLE` | `:18-81`, RFC 7541 Appendix A |
| `HUFFMAN_CODES`, `codeOf` | `:98-358`, RFC 7541 Appendix B: entry `i` codes the byte `i`, no EOS |
| `fromLowerMsb` | `BitVector::from_lower_msb` (`common/src/bits.rs:158-167`) |
| `HUFFMAN_TREE`, `insertEntry` | `:360-371` |
| `huffmanEncode`, `huffmanEncodeStep` | `huffman_encode` (`:378-425`) and its loop |

`huffman_encode` ORs each code into a big-endian `u64` read at the byte that holds the next free
bit, then pads the last byte with ones. Read big-endian, the buffer is after every turn the codes
so far followed by zero bits (`EncodeInv`), so the output read bit by bit is the codes and then
fewer than eight ones (`bytesBits_huffmanEncode`). `HUFFMAN_TREE` builds, with every byte's leaf
at the end of its code and inner nodes along seven ones (`huffmanTree_spec`): a decoder reading
those bits gets the bytes back and runs dry in the padding.
-/

namespace Dacha.Hpack

open Dacha.MsbBits Dacha.Compression HuffmanNode

/-- A header: a name and a value, both opaque byte strings. -/
structure HeaderField where
  name : List UInt8
  value : List UInt8
  deriving DecidableEq, Repr

/-- The bytes of an ASCII string literal (`str::as_bytes`). -/
def ascii (s : String) : List UInt8 := s.toList.map fun c => c.toNat.toUInt8

def STATIC_TABLE : List HeaderField := [
  ⟨ascii ":authority", ascii ""⟩,
  ⟨ascii ":method", ascii "GET"⟩,
  ⟨ascii ":method", ascii "POST"⟩,
  ⟨ascii ":path", ascii "/"⟩,
  ⟨ascii ":path", ascii "/index.html"⟩,
  ⟨ascii ":scheme", ascii "http"⟩,
  ⟨ascii ":scheme", ascii "https"⟩,
  ⟨ascii ":status", ascii "200"⟩,
  ⟨ascii ":status", ascii "204"⟩,
  ⟨ascii ":status", ascii "206"⟩,
  ⟨ascii ":status", ascii "304"⟩,
  ⟨ascii ":status", ascii "400"⟩,
  ⟨ascii ":status", ascii "404"⟩,
  ⟨ascii ":status", ascii "500"⟩,
  ⟨ascii "accept-charset", ascii ""⟩,
  ⟨ascii "accept-encoding", ascii "gzip, deflate"⟩,
  ⟨ascii "accept-language", ascii ""⟩,
  ⟨ascii "accept-ranges", ascii ""⟩,
  ⟨ascii "accept", ascii ""⟩,
  ⟨ascii "access-control-allow-origin", ascii ""⟩,
  ⟨ascii "age", ascii ""⟩,
  ⟨ascii "allow", ascii ""⟩,
  ⟨ascii "authorization", ascii ""⟩,
  ⟨ascii "cache-control", ascii ""⟩,
  ⟨ascii "content-disposition", ascii ""⟩,
  ⟨ascii "content-encoding", ascii ""⟩,
  ⟨ascii "content-language", ascii ""⟩,
  ⟨ascii "content-length", ascii ""⟩,
  ⟨ascii "content-location", ascii ""⟩,
  ⟨ascii "content-range", ascii ""⟩,
  ⟨ascii "content-type", ascii ""⟩,
  ⟨ascii "cookie", ascii ""⟩,
  ⟨ascii "date", ascii ""⟩,
  ⟨ascii "etag", ascii ""⟩,
  ⟨ascii "expect", ascii ""⟩,
  ⟨ascii "expires", ascii ""⟩,
  ⟨ascii "from", ascii ""⟩,
  ⟨ascii "host", ascii ""⟩,
  ⟨ascii "if-match", ascii ""⟩,
  ⟨ascii "if-modified-since", ascii ""⟩,
  ⟨ascii "if-none-match", ascii ""⟩,
  ⟨ascii "if-range", ascii ""⟩,
  ⟨ascii "if-unmodified-since", ascii ""⟩,
  ⟨ascii "last-modified", ascii ""⟩,
  ⟨ascii "link", ascii ""⟩,
  ⟨ascii "location", ascii ""⟩,
  ⟨ascii "max-forwards", ascii ""⟩,
  ⟨ascii "proxy-authenticate", ascii ""⟩,
  ⟨ascii "proxy-authorization", ascii ""⟩,
  ⟨ascii "range", ascii ""⟩,
  ⟨ascii "referer", ascii ""⟩,
  ⟨ascii "refresh", ascii ""⟩,
  ⟨ascii "retry-after", ascii ""⟩,
  ⟨ascii "server", ascii ""⟩,
  ⟨ascii "set-cookie", ascii ""⟩,
  ⟨ascii "strict-transport-security", ascii ""⟩,
  ⟨ascii "transfer-encoding", ascii ""⟩,
  ⟨ascii "user-agent", ascii ""⟩,
  ⟨ascii "vary", ascii ""⟩,
  ⟨ascii "via", ascii ""⟩,
  ⟨ascii "www-authenticate", ascii ""⟩
  ]

/-- `HuffmanCodeEntry`: the code in the `length` low bits of `code`. -/
structure HuffmanCodeEntry where
  code : Nat
  length : Nat
  deriving DecidableEq, Repr

set_option maxRecDepth 4000 in
def HUFFMAN_CODES : List HuffmanCodeEntry := [
  ⟨0b1111111111000, 13⟩, ⟨0b11111111111111111011000, 23⟩,
  ⟨0b1111111111111111111111100010, 28⟩, ⟨0b1111111111111111111111100011, 28⟩,
  ⟨0b1111111111111111111111100100, 28⟩, ⟨0b1111111111111111111111100101, 28⟩,
  ⟨0b1111111111111111111111100110, 28⟩, ⟨0b1111111111111111111111100111, 28⟩,
  ⟨0b1111111111111111111111101000, 28⟩, ⟨0b111111111111111111101010, 24⟩,
  ⟨0b111111111111111111111111111100, 30⟩, ⟨0b1111111111111111111111101001, 28⟩,
  ⟨0b1111111111111111111111101010, 28⟩, ⟨0b111111111111111111111111111101, 30⟩,
  ⟨0b1111111111111111111111101011, 28⟩, ⟨0b1111111111111111111111101100, 28⟩,
  ⟨0b1111111111111111111111101101, 28⟩, ⟨0b1111111111111111111111101110, 28⟩,
  ⟨0b1111111111111111111111101111, 28⟩, ⟨0b1111111111111111111111110000, 28⟩,
  ⟨0b1111111111111111111111110001, 28⟩, ⟨0b1111111111111111111111110010, 28⟩,
  ⟨0b111111111111111111111111111110, 30⟩, ⟨0b1111111111111111111111110011, 28⟩,
  ⟨0b1111111111111111111111110100, 28⟩, ⟨0b1111111111111111111111110101, 28⟩,
  ⟨0b1111111111111111111111110110, 28⟩, ⟨0b1111111111111111111111110111, 28⟩,
  ⟨0b1111111111111111111111111000, 28⟩, ⟨0b1111111111111111111111111001, 28⟩,
  ⟨0b1111111111111111111111111010, 28⟩, ⟨0b1111111111111111111111111011, 28⟩,
  ⟨0b010100, 6⟩, ⟨0b1111111000, 10⟩,
  ⟨0b1111111001, 10⟩, ⟨0b111111111010, 12⟩,
  ⟨0b1111111111001, 13⟩, ⟨0b010101, 6⟩,
  ⟨0b11111000, 8⟩, ⟨0b11111111010, 11⟩,
  ⟨0b1111111010, 10⟩, ⟨0b1111111011, 10⟩,
  ⟨0b11111001, 8⟩, ⟨0b11111111011, 11⟩,
  ⟨0b11111010, 8⟩, ⟨0b010110, 6⟩,
  ⟨0b010111, 6⟩, ⟨0b011000, 6⟩,
  ⟨0b00000, 5⟩, ⟨0b00001, 5⟩,
  ⟨0b00010, 5⟩, ⟨0b011001, 6⟩,
  ⟨0b011010, 6⟩, ⟨0b011011, 6⟩,
  ⟨0b011100, 6⟩, ⟨0b011101, 6⟩,
  ⟨0b011110, 6⟩, ⟨0b011111, 6⟩,
  ⟨0b1011100, 7⟩, ⟨0b11111011, 8⟩,
  ⟨0b111111111111100, 15⟩, ⟨0b100000, 6⟩,
  ⟨0b111111111011, 12⟩, ⟨0b1111111100, 10⟩,
  ⟨0b1111111111010, 13⟩, ⟨0b100001, 6⟩,
  ⟨0b1011101, 7⟩, ⟨0b1011110, 7⟩,
  ⟨0b1011111, 7⟩, ⟨0b1100000, 7⟩,
  ⟨0b1100001, 7⟩, ⟨0b1100010, 7⟩,
  ⟨0b1100011, 7⟩, ⟨0b1100100, 7⟩,
  ⟨0b1100101, 7⟩, ⟨0b1100110, 7⟩,
  ⟨0b1100111, 7⟩, ⟨0b1101000, 7⟩,
  ⟨0b1101001, 7⟩, ⟨0b1101010, 7⟩,
  ⟨0b1101011, 7⟩, ⟨0b1101100, 7⟩,
  ⟨0b1101101, 7⟩, ⟨0b1101110, 7⟩,
  ⟨0b1101111, 7⟩, ⟨0b1110000, 7⟩,
  ⟨0b1110001, 7⟩, ⟨0b1110010, 7⟩,
  ⟨0b11111100, 8⟩, ⟨0b1110011, 7⟩,
  ⟨0b11111101, 8⟩, ⟨0b1111111111011, 13⟩,
  ⟨0b1111111111111110000, 19⟩, ⟨0b1111111111100, 13⟩,
  ⟨0b11111111111100, 14⟩, ⟨0b100010, 6⟩,
  ⟨0b111111111111101, 15⟩, ⟨0b00011, 5⟩,
  ⟨0b100011, 6⟩, ⟨0b00100, 5⟩,
  ⟨0b100100, 6⟩, ⟨0b00101, 5⟩,
  ⟨0b100101, 6⟩, ⟨0b100110, 6⟩,
  ⟨0b100111, 6⟩, ⟨0b00110, 5⟩,
  ⟨0b1110100, 7⟩, ⟨0b1110101, 7⟩,
  ⟨0b101000, 6⟩, ⟨0b101001, 6⟩,
  ⟨0b101010, 6⟩, ⟨0b00111, 5⟩,
  ⟨0b101011, 6⟩, ⟨0b1110110, 7⟩,
  ⟨0b101100, 6⟩, ⟨0b01000, 5⟩,
  ⟨0b01001, 5⟩, ⟨0b101101, 6⟩,
  ⟨0b1110111, 7⟩, ⟨0b1111000, 7⟩,
  ⟨0b1111001, 7⟩, ⟨0b1111010, 7⟩,
  ⟨0b1111011, 7⟩, ⟨0b111111111111110, 15⟩,
  ⟨0b11111111100, 11⟩, ⟨0b11111111111101, 14⟩,
  ⟨0b1111111111101, 13⟩, ⟨0b1111111111111111111111111100, 28⟩,
  ⟨0b11111111111111100110, 20⟩, ⟨0b1111111111111111010010, 22⟩,
  ⟨0b11111111111111100111, 20⟩, ⟨0b11111111111111101000, 20⟩,
  ⟨0b1111111111111111010011, 22⟩, ⟨0b1111111111111111010100, 22⟩,
  ⟨0b1111111111111111010101, 22⟩, ⟨0b11111111111111111011001, 23⟩,
  ⟨0b1111111111111111010110, 22⟩, ⟨0b11111111111111111011010, 23⟩,
  ⟨0b11111111111111111011011, 23⟩, ⟨0b11111111111111111011100, 23⟩,
  ⟨0b11111111111111111011101, 23⟩, ⟨0b11111111111111111011110, 23⟩,
  ⟨0b111111111111111111101011, 24⟩, ⟨0b11111111111111111011111, 23⟩,
  ⟨0b111111111111111111101100, 24⟩, ⟨0b111111111111111111101101, 24⟩,
  ⟨0b1111111111111111010111, 22⟩, ⟨0b11111111111111111100000, 23⟩,
  ⟨0b111111111111111111101110, 24⟩, ⟨0b11111111111111111100001, 23⟩,
  ⟨0b11111111111111111100010, 23⟩, ⟨0b11111111111111111100011, 23⟩,
  ⟨0b11111111111111111100100, 23⟩, ⟨0b111111111111111011100, 21⟩,
  ⟨0b1111111111111111011000, 22⟩, ⟨0b11111111111111111100101, 23⟩,
  ⟨0b1111111111111111011001, 22⟩, ⟨0b11111111111111111100110, 23⟩,
  ⟨0b11111111111111111100111, 23⟩, ⟨0b111111111111111111101111, 24⟩,
  ⟨0b1111111111111111011010, 22⟩, ⟨0b111111111111111011101, 21⟩,
  ⟨0b11111111111111101001, 20⟩, ⟨0b1111111111111111011011, 22⟩,
  ⟨0b1111111111111111011100, 22⟩, ⟨0b11111111111111111101000, 23⟩,
  ⟨0b11111111111111111101001, 23⟩, ⟨0b111111111111111011110, 21⟩,
  ⟨0b11111111111111111101010, 23⟩, ⟨0b1111111111111111011101, 22⟩,
  ⟨0b1111111111111111011110, 22⟩, ⟨0b111111111111111111110000, 24⟩,
  ⟨0b111111111111111011111, 21⟩, ⟨0b1111111111111111011111, 22⟩,
  ⟨0b11111111111111111101011, 23⟩, ⟨0b11111111111111111101100, 23⟩,
  ⟨0b111111111111111100000, 21⟩, ⟨0b111111111111111100001, 21⟩,
  ⟨0b1111111111111111100000, 22⟩, ⟨0b111111111111111100010, 21⟩,
  ⟨0b11111111111111111101101, 23⟩, ⟨0b1111111111111111100001, 22⟩,
  ⟨0b11111111111111111101110, 23⟩, ⟨0b11111111111111111101111, 23⟩,
  ⟨0b11111111111111101010, 20⟩, ⟨0b1111111111111111100010, 22⟩,
  ⟨0b1111111111111111100011, 22⟩, ⟨0b1111111111111111100100, 22⟩,
  ⟨0b11111111111111111110000, 23⟩, ⟨0b1111111111111111100101, 22⟩,
  ⟨0b1111111111111111100110, 22⟩, ⟨0b11111111111111111110001, 23⟩,
  ⟨0b11111111111111111111100000, 26⟩, ⟨0b11111111111111111111100001, 26⟩,
  ⟨0b11111111111111101011, 20⟩, ⟨0b1111111111111110001, 19⟩,
  ⟨0b1111111111111111100111, 22⟩, ⟨0b11111111111111111110010, 23⟩,
  ⟨0b1111111111111111101000, 22⟩, ⟨0b1111111111111111111101100, 25⟩,
  ⟨0b11111111111111111111100010, 26⟩, ⟨0b11111111111111111111100011, 26⟩,
  ⟨0b11111111111111111111100100, 26⟩, ⟨0b111111111111111111111011110, 27⟩,
  ⟨0b111111111111111111111011111, 27⟩, ⟨0b11111111111111111111100101, 26⟩,
  ⟨0b111111111111111111110001, 24⟩, ⟨0b1111111111111111111101101, 25⟩,
  ⟨0b1111111111111110010, 19⟩, ⟨0b111111111111111100011, 21⟩,
  ⟨0b11111111111111111111100110, 26⟩, ⟨0b111111111111111111111100000, 27⟩,
  ⟨0b111111111111111111111100001, 27⟩, ⟨0b11111111111111111111100111, 26⟩,
  ⟨0b111111111111111111111100010, 27⟩, ⟨0b111111111111111111110010, 24⟩,
  ⟨0b111111111111111100100, 21⟩, ⟨0b111111111111111100101, 21⟩,
  ⟨0b11111111111111111111101000, 26⟩, ⟨0b11111111111111111111101001, 26⟩,
  ⟨0b1111111111111111111111111101, 28⟩, ⟨0b111111111111111111111100011, 27⟩,
  ⟨0b111111111111111111111100100, 27⟩, ⟨0b111111111111111111111100101, 27⟩,
  ⟨0b11111111111111101100, 20⟩, ⟨0b111111111111111111110011, 24⟩,
  ⟨0b11111111111111101101, 20⟩, ⟨0b111111111111111100110, 21⟩,
  ⟨0b1111111111111111101001, 22⟩, ⟨0b111111111111111100111, 21⟩,
  ⟨0b111111111111111101000, 21⟩, ⟨0b11111111111111111110011, 23⟩,
  ⟨0b1111111111111111101010, 22⟩, ⟨0b1111111111111111101011, 22⟩,
  ⟨0b1111111111111111111101110, 25⟩, ⟨0b1111111111111111111101111, 25⟩,
  ⟨0b111111111111111111110100, 24⟩, ⟨0b111111111111111111110101, 24⟩,
  ⟨0b11111111111111111111101010, 26⟩, ⟨0b11111111111111111110100, 23⟩,
  ⟨0b11111111111111111111101011, 26⟩, ⟨0b111111111111111111111100110, 27⟩,
  ⟨0b11111111111111111111101100, 26⟩, ⟨0b11111111111111111111101101, 26⟩,
  ⟨0b111111111111111111111100111, 27⟩, ⟨0b111111111111111111111101000, 27⟩,
  ⟨0b111111111111111111111101001, 27⟩, ⟨0b111111111111111111111101010, 27⟩,
  ⟨0b111111111111111111111101011, 27⟩, ⟨0b1111111111111111111111111110, 28⟩,
  ⟨0b111111111111111111111101100, 27⟩, ⟨0b111111111111111111111101101, 27⟩,
  ⟨0b111111111111111111111101110, 27⟩, ⟨0b111111111111111111111101111, 27⟩,
  ⟨0b111111111111111111111110000, 27⟩, ⟨0b11111111111111111111101110, 26⟩
  ]

/-- `HUFFMAN_CODES[byte as usize]`. -/
def codeOf (b : UInt8) : HuffmanCodeEntry := HUFFMAN_CODES.getD b.toNat ⟨0, 0⟩

/-- The bits of a byte's code, first bit first. -/
def codeBits (b : UInt8) : List Bool := msbBits (codeOf b).length (codeOf b).code

theorem length_STATIC_TABLE : STATIC_TABLE.length = 61 := rfl

set_option maxRecDepth 4000 in
theorem length_HUFFMAN_CODES : HUFFMAN_CODES.length = 256 := rfl

set_option maxRecDepth 8000 in
/-- Every code fits its length, and lengths run from 5 to 30 bits. -/
theorem huffmanCodes_fit :
    ∀ e ∈ HUFFMAN_CODES, e.code < 2 ^ e.length ∧ 5 ≤ e.length ∧ e.length ≤ 30 := by
  decide

theorem codeOf_fit (b : UInt8) :
    (codeOf b).code < 2 ^ (codeOf b).length ∧ 5 ≤ (codeOf b).length ∧ (codeOf b).length ≤ 30 := by
  have hb : b.toNat < HUFFMAN_CODES.length := by rw [length_HUFFMAN_CODES]; exact b.toNat_lt
  rw [codeOf, List.getD_eq_getElem _ _ hb]
  exact huffmanCodes_fit _ (List.getElem_mem hb)

/-! ## `HUFFMAN_TREE` -/

/-- `BitVector::from_lower_msb`: the `width` low bits of `val`, most significant first, after the
assert that nothing lies above them. -/
def fromLowerMsb (val width : Nat) : Except String (List Bool) :=
  if val >>> width = 0 then .ok (msbBits width val)
  else .error "assertion `left == right` failed"

/-- One turn of the loop building `HUFFMAN_TREE`: entry `i`'s code goes in under `i`. -/
def insertEntry (tree : HuffmanTree) (entry : HuffmanCodeEntry × Nat) :
    Except String HuffmanTree := do
  let code ← fromLowerMsb entry.1.code entry.1.length
  tree.insert entry.2 code

/-- `HUFFMAN_TREE`; `lazy_static` unwraps every insert, so an error here is a panic at first use. -/
def HUFFMAN_TREE : Except String HuffmanTree :=
  HUFFMAN_CODES.zipIdx.foldlM insertEntry HuffmanTree.new

theorem fromLowerMsb_of_lt {val width : Nat} (h : val < 2 ^ width) :
    fromLowerMsb val width = .ok (msbBits width val) := by
  simp [fromLowerMsb, Nat.shiftRight_eq_div_pow, Nat.div_eq_of_lt h]

/-- Inserting entries one after another keeps what the tree had, and leaves each entry's leaf
at the end of its code with inner nodes before it. -/
theorem foldlM_insertEntry :
    ∀ {entries : List (HuffmanCodeEntry × Nat)} {t t' : HuffmanTree},
      (∀ e ∈ entries, e.1.code < 2 ^ e.1.length) →
      entries.foldlM insertEntry t = .ok t' →
      HuffmanTree.Extends t t' ∧ ∀ e ∈ entries,
        LeafAt t'.root (msbBits e.1.length e.1.code) e.2 ∧
        ∀ k < e.1.length, InnerAt t'.root ((msbBits e.1.length e.1.code).take k)
  | [], t, t', _, h => by
    cases h
    exact ⟨HuffmanTree.Extends.refl t, fun e he => absurd he List.not_mem_nil⟩
  | e :: es, t, t', hfit, h => by
    rw [List.foldlM_cons] at h
    cases hstep : insertEntry t e with
    | error msg => rw [hstep] at h; cases h
    | ok t₁ =>
      rw [hstep] at h
      have hins : t.insert e.2 (msbBits e.1.length e.1.code) = .ok t₁ := by
        simpa [insertEntry, fromLowerMsb_of_lt (hfit e List.mem_cons_self), bind,
          Except.bind] using hstep
      obtain ⟨hext, hrest⟩ := foldlM_insertEntry (fun e' he' => hfit e' (List.mem_cons_of_mem _ he')) h
      refine ⟨(HuffmanTree.insert_extends hins).trans hext, fun e' he' => ?_⟩
      rcases List.mem_cons.mp he' with rfl | he'
      · refine ⟨hext.1 _ _ (HuffmanTree.insert_leafAt hins), fun k hk => ?_⟩
        exact hext.2 _ (HuffmanTree.insert_innerAt_take hins k (by simpa using hk))
      · exact hrest e' he'

/-- The first code, byte 0's, starts with seven ones. -/
theorem codeBits_zero_take (k : Nat) (hk : k ≤ 7) :
    (codeBits 0).take k = List.replicate k true := by
  revert k; decide

/-- `HUFFMAN_TREE` builds; every byte's leaf sits at the end of its code, and the paths of up to
seven ones are inner nodes. -/
theorem huffmanTree_spec : ∃ t, HUFFMAN_TREE = .ok t ∧
    (∀ b : UInt8, LeafAt t.root (codeBits b) b.toNat) ∧
    ∀ k ≤ 7, InnerAt t.root (List.replicate k true) := by
  have hok : HUFFMAN_TREE.isOk = true := by decide +kernel
  obtain ⟨t, ht⟩ : ∃ t, HUFFMAN_TREE = .ok t := by
    cases h : HUFFMAN_TREE with
    | ok t => exact ⟨t, rfl⟩
    | error msg => rw [h] at hok; cases hok
  have hfit : ∀ e ∈ HUFFMAN_CODES.zipIdx, e.1.code < 2 ^ e.1.length := fun e he =>
    (huffmanCodes_fit e.1 (List.mem_of_getElem? (List.mem_zipIdx_iff_getElem?.mp he))).1
  have hall := (foldlM_insertEntry hfit ht).2
  have hmem : ∀ b : UInt8, (codeOf b, b.toNat) ∈ HUFFMAN_CODES.zipIdx := fun b => by
    have hb : b.toNat < HUFFMAN_CODES.length := by rw [length_HUFFMAN_CODES]; exact b.toNat_lt
    rw [List.mem_zipIdx_iff_getElem?, codeOf, List.getD_eq_getElem _ _ hb]
    exact List.getElem?_eq_getElem hb
  refine ⟨t, ht, fun b => (hall _ (hmem b)).1, fun k hk => ?_⟩
  have hlen : (codeOf 0).length = 13 := rfl
  have hzero := (hall _ (hmem 0)).2 k (by show k < (codeOf 0).length; omega)
  rwa [← codeBits, codeBits_zero_take k hk] at hzero

/-! ## `huffman_encode` -/

/-- One turn of `huffman_encode`'s loop: the buffer and `bit_offset` after the code of `byte`. -/
def huffmanEncodeStep (out : List UInt8) (bitOffset : Nat) (byte : UInt8) : List UInt8 × Nat :=
  let byteOffset := bitOffset / 8
  let bitRelOffset := bitOffset % 8
  -- grow the buffer until a whole u64 fits at byte_offset
  let out := if out.length - byteOffset < 8 then
      out ++ List.replicate (max (2 * out.length) (out.length + 8) - out.length) 0
    else out
  let outInt := fromBe ((out.drop byteOffset).take 8)
  let codeEntry := codeOf byte
  let outInt := outInt ||| (codeEntry.code <<< (64 - bitRelOffset - codeEntry.length)) % 2 ^ 64
  (out.take byteOffset ++ toBe outInt 8 ++ out.drop (byteOffset + 8),
    bitOffset + codeEntry.length)

def huffmanEncode (input : List UInt8) : List UInt8 :=
  let state := input.foldl (fun s byte => huffmanEncodeStep s.1 s.2 byte) (List.replicate 8 0, 0)
  let out := state.1
  let byteOffset := state.2 / 8
  let bitRelOffset := state.2 % 8
  if bitRelOffset ≠ 0 then
    (out.take (byteOffset + 1)).modify byteOffset
      (· ||| UInt8.ofNat ((1 <<< (8 - bitRelOffset)) - 1))
  else out.take byteOffset

/-- The codes of `input` after `acc`, read as one number. -/
def codeValue (acc : Nat) (input : List UInt8) : Nat :=
  input.foldl (fun acc b => acc * 2 ^ (codeOf b).length + (codeOf b).code) acc

/-- How many bits the codes of `input` take. -/
def codeLength (input : List UInt8) : Nat := (input.map fun b => (codeOf b).length).sum

/-- The padding `huffman_encode` ends with: ones up to the next byte boundary. -/
def paddingLength (input : List UInt8) : Nat := (8 - codeLength input % 8) % 8

theorem msbBits_codeValue (n acc : Nat) (input : List UInt8) :
    msbBits (n + codeLength input) (codeValue acc input) = msbBits n acc ++ input.flatMap codeBits := by
  induction input generalizing n acc with
  | nil => simp [codeLength, codeValue]
  | cons b bs ih =>
    have hlen : n + codeLength (b :: bs) = (n + (codeOf b).length) + codeLength bs := by
      simp [codeLength]; omega
    rw [hlen, codeValue, List.foldl_cons, ← codeValue, ih,
      msbBits_mul_add _ _ _ _ (codeOf_fit b).1, List.flatMap_cons, List.append_assoc]
    rfl

/-- The buffer holds the codes so far, the number `acc` in its first `bitOffset` bits, then zero
bits, with a byte to spare after them. -/
structure EncodeInv (out : List UInt8) (bitOffset acc : Nat) : Prop where
  value : fromBe out = acc * 2 ^ (8 * out.length - bitOffset)
  room : bitOffset + 8 ≤ 8 * out.length

theorem EncodeInv.append_zeros {out : List UInt8} {bo acc : Nat} (h : EncodeInv out bo acc)
    (m : Nat) : EncodeInv (out ++ List.replicate m 0) bo acc := by
  have hroom := h.room
  constructor
  · rw [fromBe_append, fromBe_replicate_zero, Nat.add_zero, h.value, List.length_replicate,
      ← two_pow_eight_mul, mul_assoc, ← pow_add, List.length_append, List.length_replicate]
    congr 2
    omega
  · simp only [List.length_append, List.length_replicate]; omega

/-- One turn of the loop appends the byte's code. -/
theorem huffmanEncodeStep_inv {out : List UInt8} {bo acc : Nat} (h : EncodeInv out bo acc)
    (b : UInt8) :
    EncodeInv (huffmanEncodeStep out bo b).1 (bo + (codeOf b).length)
      (acc * 2 ^ (codeOf b).length + (codeOf b).code) ∧
    (huffmanEncodeStep out bo b).2 = bo + (codeOf b).length := by
  obtain ⟨hc, -, hL⟩ := codeOf_fit b
  have hroom := h.room
  obtain ⟨out₁, hout₁, hinv₁, hwin⟩ : ∃ out₁,
      out₁ = (if out.length - bo / 8 < 8 then
        out ++ List.replicate (max (2 * out.length) (out.length + 8) - out.length) 0 else out) ∧
      EncodeInv out₁ bo acc ∧ bo / 8 + 8 ≤ out₁.length := by
    refine ⟨_, rfl, ?_, ?_⟩
    · split
      · exact h.append_zeros _
      · exact h
    · split
      · simp only [List.length_append, List.length_replicate]; omega
      · omega
  have hval := fromBe_orWindow hinv₁.value hwin hc (by omega)
  refine ⟨⟨?_, ?_⟩, rfl⟩
  · simp only [huffmanEncodeStep, ← hout₁]
    rw [hval]
    simp only [List.length_append, List.length_take, length_toBe, List.length_drop]
    congr 2
    omega
  · simp only [huffmanEncodeStep, ← hout₁, List.length_append, List.length_take, length_toBe,
      List.length_drop]
    omega

theorem foldl_huffmanEncodeStep (input : List UInt8) :
    ∀ {out : List UInt8} {bo acc : Nat}, EncodeInv out bo acc →
      let state := input.foldl (fun s byte => huffmanEncodeStep s.1 s.2 byte) (out, bo)
      EncodeInv state.1 state.2 (codeValue acc input) ∧ state.2 = bo + codeLength input := by
  induction input with
  | nil => intro out bo acc h; exact ⟨h, by simp [codeLength]⟩
  | cons b bs ih =>
    intro out bo acc h
    obtain ⟨hstep, hbo⟩ := huffmanEncodeStep_inv h b
    have hrest := ih hstep
    simp only [List.foldl_cons] at hrest ⊢
    rw [← hbo] at hrest
    refine ⟨hrest.1, ?_⟩
    rw [hrest.2, hbo]
    simp [codeLength]
    omega

/-- Read big-endian, the output is the codes followed by ones to the byte boundary. -/
theorem huffmanEncode_value (input : List UInt8) :
    fromBe (huffmanEncode input) =
      codeValue 0 input * 2 ^ paddingLength input + (2 ^ paddingLength input - 1) ∧
    8 * (huffmanEncode input).length = codeLength input + paddingLength input := by
  have hinit : EncodeInv (List.replicate 8 0) 0 0 :=
    ⟨by rw [fromBe_replicate_zero, Nat.zero_mul], by simp⟩
  obtain ⟨hinv, hbo⟩ := foldl_huffmanEncodeStep input hinit
  unfold huffmanEncode paddingLength
  generalize input.foldl (fun s byte => huffmanEncodeStep s.1 s.2 byte) (List.replicate 8 0, 0)
    = state at hinv hbo ⊢
  have hroom := hinv.room
  rw [Nat.zero_add] at hbo
  rw [← hbo]
  by_cases hrel : state.2 % 8 = 0
  · -- the codes end on a byte boundary: no padding
    rw [if_neg (not_not.mpr hrel), fromBe_take_of_aligned hinv.value (by omega) hrel, hrel]
    refine ⟨by simp, ?_⟩
    rw [List.length_take]
    omega
  · rw [if_pos hrel, fromBe_padOnes hinv.value (by omega),
      Nat.mod_eq_of_lt (show 8 - state.2 % 8 < 8 by omega)]
    refine ⟨rfl, ?_⟩
    have hlen : ((state.1.take (state.2 / 8 + 1)).modify (state.2 / 8)
        (· ||| UInt8.ofNat ((1 <<< (8 - state.2 % 8)) - 1))).length = state.2 / 8 + 1 := by
      simp only [List.length_modify, List.length_take]; omega
    rw [hlen]
    omega

/-- Read bit by bit, the output is the codes of the input and then fewer than eight ones. -/
theorem bytesBits_huffmanEncode (input : List UInt8) :
    bytesBits (huffmanEncode input) =
      input.flatMap codeBits ++ List.replicate (paddingLength input) true := by
  obtain ⟨hval, hlen⟩ := huffmanEncode_value input
  have hpad : 2 ^ paddingLength input - 1 < 2 ^ paddingLength input :=
    Nat.sub_lt (Nat.two_pow_pos _) one_pos
  rw [bytesBits_eq_msbBits, hval, hlen, msbBits_mul_add _ _ _ _ hpad,
    msbBits_two_pow_sub_one, ← Nat.zero_add (codeLength input), msbBits_codeValue]
  rfl

/-- The name in the source's encoder test (`encoder.rs:128-134`). -/
example : huffmanEncode (ascii "awesome-header") = [31, 130, 160, 244, 149, 105, 202, 57, 11, 103] := by
  decide +kernel

theorem paddingLength_lt (input : List UInt8) : paddingLength input < 8 :=
  Nat.mod_lt _ (by norm_num)

end Dacha.Hpack
