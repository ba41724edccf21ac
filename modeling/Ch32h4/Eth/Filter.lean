import Ch32h4.Cyclic
import Ch32h4.TransitionSystem
import Mathlib.Algebra.Order.Ring.Nat

/-!
# The multicast filter of the Ethernet MAC

Translation of `eth_igmp_filter` and of what it calls.  The MAC takes in a multicast frame if a bit of
its hash table is set, which the CRC of the destination address selects.  Several groups can share a
bit, so the driver counts the groups of each.

What the table is for is stated apart: `hashBin` is the bit that the MAC looks at for a group, from
the bits of the address as they are on the wire.
-/

namespace Ch32h4.Eth

/-! ### The CRC -/

/-- `eth_crc32`. -/
def crc32 (data : List (BitVec 8)) : BitVec 32 :=
  ~~~ data.foldl (fun crc octet =>
    (fun crc => if crc &&& 1#32 = 1#32 then (crc >>> 1) ^^^ 0xEDB88320#32 else crc >>> 1)^[8]
      (crc ^^^ octet.setWidth 32)) 0xFFFFFFFF#32

/-- The loop that turns a CRC around. -/
def reversed (crc : BitVec 32) : BitVec 32 :=
  (List.range 32).foldl (fun rev i => (rev <<< 1) ||| ((crc >>> i) &&& 1#32)) 0#32

/-! ### The filter -/

/-- The static count of groups for each bin (each a `uint8_t`), and the registers of the table. -/
structure HashFilter where
  hash_count : ℕ → ℕ
  machtlr : BitVec 32
  machthr : BitVec 32

/-- `enum netif_mac_filter_action`, and what is not one of its values. -/
inductive FilterAction where
  | del
  | add
  | other
  deriving DecidableEq

inductive Err where
  | ok
  | arg
  deriving DecidableEq

/-- The hardware address for a group, whose address is given in network byte order. -/
def multicastMac (g : BitVec 32) : List (BitVec 8) :=
  [0x01#8, 0x00#8, 0x5E#8, ((g >>> 8) &&& 0x7F#32).setWidth 8, ((g >>> 16) &&& 0xFF#32).setWidth 8,
    ((g >>> 24) &&& 0xFF#32).setWidth 8]

/-- The bin of a group. -/
def groupBin (g : BitVec 32) : ℕ :=
  ((reversed (crc32 (multicastMac g)) >>> 26) &&& 0x3F#32).toNat

namespace HashFilter

variable (f : HashFilter)

/-- `eth_hash_apply`. -/
def apply : HashFilter :=
  let words : BitVec 32 × BitVec 32 := (List.range 64).foldl (fun words i =>
    if f.hash_count i = 0 then words
    else if i < 32 then (words.1 ||| (1#32 <<< i), words.2)
    else (words.1, words.2 ||| (1#32 <<< (i - 32)))) (0#32, 0#32)
  { f with machtlr := words.1, machthr := words.2 }

/-- `eth_igmp_filter`. -/
def igmpFilter (group : BitVec 32) (action : FilterAction) : HashFilter × Err :=
  let bin := groupBin group
  let count := f.hash_count bin
  match action with
  | .add =>
    let f' := if count < 255 then
      { f with hash_count := fun i => if i = bin then count + 1 else f.hash_count i } else f
    (f'.apply, .ok)
  | .del =>
    let f' := if 0 < count then
      { f with hash_count := fun i => if i = bin then count - 1 else f.hash_count i } else f
    (f'.apply, .ok)
  | .other => (f, .arg)

/-- A bit of the table. -/
def bit (b : ℕ) : Bool := if b < 32 then f.machtlr.getLsbD b else f.machthr.getLsbD (b - 32)

end HashFilter

/-- Nothing is counted, and `eth_mac_init` has cleared the registers. -/
def HashFilter.clear : HashFilter := ⟨fun _ => 0, 0#32, 0#32⟩

/-- An address in network byte order, as a little-endian machine holds it. -/
def htonl (n : BitVec 32) : BitVec 32 :=
  n.extractLsb' 0 8 ++ n.extractLsb' 8 8 ++ n.extractLsb' 16 8 ++ n.extractLsb' 24 8

/-- lwIP joins a group, or leaves it; the address is the number that its octets spell. -/
inductive Membership where
  | join (n : BitVec 32)
  | leave (n : BitVec 32)
  deriving DecidableEq

def filterMachine : Machine HashFilter Membership where
  init f := f = .clear
  step f
    | .join n => some (f.igmpFilter (htonl n) .add).1
    | .leave n => some (f.igmpFilter (htonl n) .del).1

/-! ### What the MAC looks at -/

/-- The 48-bit address of a group: a prefix of 25 bits, and the low 23 bits of the group's. -/
def multicastAddress (n : BitVec 32) : BitVec 48 := 0x01005E#24 ++ (0#1 ++ n.setWidth 23)

/-- The bits of an address in the order in which they are sent: octet for octet, in each the lowest
first. -/
def wireBits (mac : BitVec 48) : List Bool :=
  (List.range 6).flatMap fun k => (List.range 8).map (mac.extractLsb' (8 * (5 - k)) 8).getLsbD

/-- The check word for some bits, its highest coefficient in the high bit. -/
def frameCheck (bits : List Bool) : BitVec 32 :=
  ~~~ bits.foldl (Cyclic.feed 0x04C11DB7#32) 0xFFFFFFFF#32

/-- The bit of the table that decides on the frames for a group: the upper six bits of the check
word of the destination. -/
def hashBin (n : BitVec 32) : ℕ := (frameCheck (wireBits (multicastAddress n))).toNat / 2 ^ 26

/-- The groups that have been joined and not left, each as often as it was joined. -/
def joined (_ : HashFilter) (groups : List (BitVec 32)) : Membership → List (BitVec 32)
  | .join n => n :: groups
  | .leave n => groups.erase n

/-- The machine, with a note of the groups that are joined. -/
def noted : Machine (HashFilter × List (BitVec 32)) Membership :=
  filterMachine.observed (fun _ => []) joined

/-- A group that is left was joined before, and no bin has more groups than its count can hold. -/
def Counted (s : HashFilter × List (BitVec 32)) : Membership → Prop
  | .join n => s.2.countP (hashBin · = hashBin n) < 255
  | .leave n => n ∈ s.2

instance (s : HashFilter × List (BitVec 32)) : (a : Membership) → Decidable (Counted s a)
  | .join _ => inferInstanceAs (Decidable (_ < _))
  | .leave _ => inferInstanceAs (Decidable (_ ∈ _))

end Ch32h4.Eth
