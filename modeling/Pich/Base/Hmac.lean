import Pich.Base.Bytes

/-! HMAC as in RFC 2104 and HKDF as in RFC 5869, over any hash and any block size. -/

namespace Hmac
open Bytes

abbrev ByteString := List (BitVec 8)

section Definitions
variable (hash : ByteString → ByteString) (block : Nat)

/-- A key longer than a block is hashed first; the result is filled up with zeros. -/
def blockKey (key : ByteString) : ByteString :=
  let key := if block < key.length then hash key else key
  key ++ List.replicate (block - key.length) 0

def innerInput (key text : ByteString) : ByteString :=
  xorBytes (blockKey hash block key) (List.replicate block 0x36) ++ text

def outerInput (key text : ByteString) : ByteString :=
  xorBytes (blockKey hash block key) (List.replicate block 0x5c) ++ hash (innerInput hash block key text)

def hmac (key text : ByteString) : ByteString := hash (outerInput hash block key text)

/-- Extraction. A salt that is not provided is `hashLen` zeros. -/
def extract (hashLen : Nat) (salt : Option ByteString) (ikm : ByteString) : ByteString :=
  hmac hash block (salt.getD (List.replicate hashLen 0)) ikm

/-- `T(0)` is empty and `T(i) = HMAC(PRK, T(i-1) | info | i)`. -/
def expandBlock (prk info : ByteString) : Nat → ByteString
  | 0 => []
  | i + 1 => hmac hash block prk (expandBlock prk info i ++ info ++ [BitVec.ofNat 8 (i + 1)])

/-- The first `l` bytes of `T(1) | ... | T(N)`, with `N` the number of blocks that takes. -/
def expand (hashLen : Nat) (prk info : ByteString) (l : Nat) : ByteString :=
  ((List.range ((l + hashLen - 1) / hashLen)).flatMap fun i => expandBlock hash block prk info (i + 1)).take l

def hkdf (hashLen : Nat) (salt : Option ByteString) (ikm info : ByteString) (l : Nat) : ByteString :=
  expand hash block hashLen (extract hash block hashLen salt ikm) info l

end Definitions

/-- Two of the inputs differ and have the same hash. -/
def Collides (hash : ByteString → ByteString) (inputs : List ByteString) : Prop :=
  ∃ x ∈ inputs, ∃ y ∈ inputs, x ≠ y ∧ hash x = hash y

theorem Collides.mono {hash : ByteString → ByteString} {inputs more : List ByteString}
    (collides : Collides hash inputs) (among : ∀ x ∈ inputs, x ∈ more) : Collides hash more := by
  obtain ⟨x, hx, y, hy, different, same⟩ := collides
  exact ⟨x, among x hx, y, among y hy, different, same⟩

section Laws
variable {hash : ByteString → ByteString} {block : Nat}

theorem xorBytes_replicate {mask : BitVec 8} {key : ByteString} (size : key.length = block) :
    xorBytes key (List.replicate block mask) = key.map (· ^^^ mask) := by
  subst size
  induction key with
  | nil => rfl
  | cons b key ih =>
    rw [xorBytes] at ih
    rw [List.length_cons, List.replicate_succ, xorBytes, List.zipWith_cons_cons, ih, List.map_cons]

theorem map_xor_injective (mask : BitVec 8) :
    Function.Injective fun key : ByteString => key.map (· ^^^ mask) := by
  intro key key' same
  have undone : ∀ key : ByteString, (key.map (· ^^^ mask)).map (· ^^^ mask) = key := by
    intro key
    have cancelled : ∀ b ∈ key, ((· ^^^ mask) ∘ (· ^^^ mask)) b = id b := by
      intro b _
      rw [Function.comp_apply, BitVec.xor_assoc, BitVec.xor_self, BitVec.xor_zero, id]
    rw [List.map_map, List.map_congr_left cancelled, List.map_id]
  exact ((undone key).symm.trans (congrArg (List.map (· ^^^ mask)) same)).trans (undone key')

theorem blockKey_of_le {key : ByteString} (fits : key.length ≤ block) :
    blockKey hash block key = key ++ List.replicate (block - key.length) 0 := by
  rw [blockKey, if_neg (by omega)]

theorem blockKey_length_of_le {key : ByteString} (fits : key.length ≤ block) :
    (blockKey hash block key).length = block := by
  rw [blockKey_of_le fits, List.length_append, List.length_replicate]
  omega

theorem hmac_zero_padded {key : ByteString} {n : Nat} (fits : key.length + n ≤ block) (text : ByteString) :
    hmac hash block (key ++ List.replicate n 0) text = hmac hash block key text := by
  have padded : blockKey hash block (key ++ List.replicate n 0) = blockKey hash block key := by
    rw [blockKey_of_le (by simpa using fits), blockKey_of_le (by omega), List.append_assoc,
      List.replicate_append_replicate, List.length_append, List.length_replicate]
    congr 2
    omega
  simp only [hmac, outerInput, innerInput, padded]

theorem extract_empty {hashLen : Nat} (fits : hashLen ≤ block) (ikm : ByteString) :
    extract hash block hashLen (some []) ikm = extract hash block hashLen none ikm := by
  have padded : hmac hash block ([] ++ List.replicate hashLen 0) ikm = hmac hash block [] ikm :=
    hmac_zero_padded (by simpa using fits) ikm
  rw [List.nil_append] at padded
  rw [extract, extract, Option.getD_some, Option.getD_none, padded]

theorem expand_one {hashLen : Nat} (positive : 0 < hashLen) {prk info : ByteString}
    (size : (hmac hash block prk (info ++ [1])).length = hashLen) :
    expand hash block hashLen prk info hashLen = hmac hash block prk (info ++ [1]) := by
  have single : (hashLen + hashLen - 1) / hashLen = 1 :=
    Nat.div_eq_of_lt_le (by omega) (by omega)
  have first : expandBlock hash block prk info 1 = hmac hash block prk (info ++ [1]) := by
    simp [expandBlock]
  rw [expand, single, List.range_one, List.flatMap_singleton, first]
  exact List.take_of_length_le (Nat.le_of_eq size)

/-- What stands for a key before it is filled up to a block. -/
def entered (hash : ByteString → ByteString) (block : Nat) (key : ByteString) : ByteString :=
  if block < key.length then hash key else key

theorem blockKey_entered (key : ByteString) :
    blockKey hash block key = entered hash block key ++ List.replicate (block - (entered hash block key).length) 0 := rfl

theorem entered_length_le (hashFits : ∀ x, (hash x).length ≤ block) (key : ByteString) :
    (entered hash block key).length ≤ block := by
  unfold entered
  split
  · exact hashFits key
  · omega

theorem blockKey_length (hashFits : ∀ x, (hash x).length ≤ block) (key : ByteString) :
    (blockKey hash block key).length = block := by
  have fits := entered_length_le hashFits key
  rw [blockKey_entered, List.length_append, List.length_replicate]
  omega

/-- One of the strings is the other with zeros behind it. -/
def ZeroExtended (a b : ByteString) : Prop :=
  ∃ n, a = b ++ List.replicate n 0 ∨ b = a ++ List.replicate n 0

theorem zeroExtended_of_filled {a b : ByteString} {n m : Nat} (shorter : a.length ≤ b.length)
    (filled : a ++ List.replicate n 0 = b ++ List.replicate m 0) : b = a ++ List.replicate (b.length - a.length) 0 := by
  have sizes : a.length + n = b.length + m := by simpa using congrArg List.length filled
  have cut := congrArg (List.take b.length) filled
  rw [List.take_left, List.take_append, List.take_of_length_le shorter, List.take_replicate,
    Nat.min_eq_left (by omega)] at cut
  exact cut.symm

theorem filled_eq_iff {a b : ByteString} (fits : a.length ≤ block) (fits' : b.length ≤ block) :
    a ++ List.replicate (block - a.length) 0 = b ++ List.replicate (block - b.length) 0 ↔ ZeroExtended a b := by
  have extended : ∀ {a : ByteString} {n}, (a ++ List.replicate n 0).length ≤ block →
      a ++ List.replicate n 0 ++ List.replicate (block - (a ++ List.replicate n 0).length) 0 =
        a ++ List.replicate (block - a.length) 0 := by
    intro a n fits
    rw [List.length_append, List.length_replicate] at fits
    rw [List.append_assoc, List.replicate_append_replicate, List.length_append, List.length_replicate]
    congr 2
    omega
  constructor
  · intro filled
    rcases Nat.le_total a.length b.length with shorter | longer
    · exact ⟨_, .inr (zeroExtended_of_filled shorter filled)⟩
    · exact ⟨_, .inl (zeroExtended_of_filled longer filled.symm)⟩
  · rintro ⟨n, rfl | rfl⟩
    · exact extended fits
    · exact (extended fits').symm

/-- Equal codes are a collision, or come from one block key and one text. -/
theorem hmac_binds {key key' text text' : ByteString} (size : (blockKey hash block key).length = block)
    (size' : (blockKey hash block key').length = block)
    (same : hmac hash block key text = hmac hash block key' text') :
    Collides hash ([innerInput hash block key text, outerInput hash block key text] ++
      [innerInput hash block key' text', outerInput hash block key' text']) ∨
      blockKey hash block key = blockKey hash block key' ∧ text = text' := by
  by_cases outer : outerInput hash block key text = outerInput hash block key' text'
  · rw [outerInput, outerInput, xorBytes_replicate size, xorBytes_replicate size'] at outer
    obtain ⟨masked, inner⟩ := List.append_inj outer (by simp [size, size'])
    have keys := map_xor_injective 0x5c masked
    by_cases inputs : innerInput hash block key text = innerInput hash block key' text'
    · rw [innerInput, innerInput, keys] at inputs
      exact .inr ⟨keys, List.append_cancel_left inputs⟩
    · exact .inl ⟨innerInput hash block key text, by simp, innerInput hash block key' text', by simp, inputs, inner⟩
  · exact .inl ⟨outerInput hash block key text, by simp, outerInput hash block key' text', by simp, outer, same⟩

/-- Equal codes of different inputs, under keys of one length within a block, are a collision. -/
theorem hmac_collision {key key' text text' : ByteString} (fits : key.length ≤ block)
    (size : key.length = key'.length) (different : key ≠ key' ∨ text ≠ text')
    (same : hmac hash block key text = hmac hash block key' text') :
    Collides hash ([innerInput hash block key text, outerInput hash block key text] ++
      [innerInput hash block key' text', outerInput hash block key' text']) := by
  have fits' : key'.length ≤ block := by omega
  rcases hmac_binds (blockKey_length_of_le fits) (blockKey_length_of_le fits') same with collides | ⟨keys, texts⟩
  · exact collides
  · rw [blockKey_of_le fits, blockKey_of_le fits'] at keys
    obtain ⟨plain, _⟩ := List.append_inj keys size
    exact different.elim (fun h => absurd plain h) fun h => absurd texts h

end Laws

end Hmac
