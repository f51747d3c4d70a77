import Morpheus.Sha256

/-!
# The fingerprint as it is computed

`gener-source-preparer.c` collects the text in a block of 64 bytes, which goes into the state
whenever it is full. The padding takes a second block where the length does not fit into the first.
-/
namespace Morpheus.Sha256

/-- The bytes of a block. -/
abbrev Block := {block : Bytes // block.length = 64}

/-- `sha256_context`. Between two updates the block is not full. -/
structure Context where
  state : Words
  bitCount : UInt64
  block : Bytes
  blockSize : ℕ
  block_length : block.length = 64
  blockSize_lt : blockSize < 64

/-- The block with `data` in the bytes from `start` on. -/
def copyInto (block : Bytes) (start : ℕ) (data : Bytes) : Bytes :=
  block.take start ++ data ++ block.drop (start + data.length)

theorem copyInto_length {block data : Bytes} {start : ℕ} (h : start + data.length ≤ block.length) :
    (copyInto block start data).length = block.length := by
  simp only [copyInto, List.length_append, List.length_take, List.length_drop]
  omega

theorem copyInto_take {block data : Bytes} {start : ℕ} (h : start ≤ block.length) :
    (copyInto block start data).take (start + data.length) = block.take start ++ data := by
  have hlen : (block.take start ++ data).length = start + data.length := by
    rw [List.length_append, List.length_take, Nat.min_eq_left h]
  rw [copyInto, List.take_left' hlen]

/-- `sha256_init`. The block is not initialized. -/
def sha256Init (block : Block) : Context := ⟨initial, 0, block.1, 0, block.2, by decide⟩

/-- The bytes that the next turn of the loop of `sha256_update` copies. -/
def Context.amount (context : Context) (data : Bytes) : ℕ := min data.length (64 - context.blockSize)

theorem Context.take_amount_length (context : Context) (data : Bytes) :
    (data.take (context.amount data)).length = context.amount data := by
  rw [List.length_take, amount]
  omega

theorem Context.copied_length (context : Context) (data : Bytes) :
    (copyInto context.block context.blockSize (data.take (context.amount data))).length = 64 := by
  have hlt := context.blockSize_lt
  rw [copyInto_length, context.block_length]
  rw [context.take_amount_length, context.block_length, amount]
  omega

/-- One turn of the loop of `sha256_update`. -/
def Context.copy (context : Context) (data : Bytes) : Context :=
  let block := copyInto context.block context.blockSize (data.take (context.amount data))
  if h : context.blockSize + context.amount data = 64 then
    { context with
      state := transform context.state block
      block
      blockSize := 0
      block_length := context.copied_length data
      blockSize_lt := by decide }
  else
    { context with
      block
      blockSize := context.blockSize + context.amount data
      block_length := context.copied_length data
      blockSize_lt := by
        have hlt := context.blockSize_lt
        unfold amount at h ⊢
        omega }

def Context.copyAll (context : Context) (data : Bytes) : Context :=
  if _ : data = [] then context
  else (context.copy data).copyAll (data.drop (context.amount data))
termination_by data.length
decreasing_by
  have hpos := List.length_pos_iff.mpr ‹data ≠ []›
  have hlt := context.blockSize_lt
  rw [List.length_drop, amount]
  omega

/-- `sha256_update` -/
def sha256Update (context : Context) (data : Bytes) : Context :=
  Context.copyAll { context with bitCount := context.bitCount + UInt64.ofNat data.length * 8 } data

/-- The padding of `sha256_hex` and the last one or two blocks. -/
def Context.finish (context : Context) : Words :=
  let block := context.block.set context.blockSize 0x80
  let size := context.blockSize + 1
  let full := copyInto block size (List.replicate (64 - size) 0)
  let last := if size > 56 then (transform context.state full, full, 0) else (context.state, block, size)
  let zeroed := copyInto last.2.1 last.2.2 (List.replicate (56 - last.2.2) 0)
  transform last.1 ((List.range 8).foldl (fun block index =>
    block.set (63 - index) (context.bitCount >>> UInt64.ofNat (index * 8)).toUInt8) zeroed)

def digits : Bytes := ascii "0123456789abcdef"

/-- The bytes of `digest` that come from a word of the state. -/
def wordBytes (word : UInt32) : Bytes :=
  [(word >>> 24).toUInt8, (word >>> 16).toUInt8, (word >>> 8).toUInt8, word.toUInt8]

def digitPair (byte : UInt8) : Bytes :=
  [digits.getD (byte >>> 4).toNat 0, digits.getD (byte &&& 15).toNat 0]

/-- The text that `sha256_hex` leaves in `output`, with its NUL. -/
def sha256Output (block : Block) (text : Bytes) : Bytes :=
  let s := (sha256Update (sha256Init block) (cstr text)).finish
  let digest := [s.a, s.b, s.c, s.d, s.e, s.f, s.g, s.h].flatMap wordBytes
  digest.flatMap digitPair ++ [0]

section Blocks

theorem blocks_append {count : ℕ} {seen : Bytes} (more : Bytes) (h : 64 * count ≤ seen.length) :
    blocks count (seen ++ more) = blocks count seen := by
  induction count generalizing seen with
  | zero => rfl
  | succ count ih =>
    have hrest : 64 * count ≤ (seen.drop 64).length := by
      rw [List.length_drop]
      omega
    rw [blocks, blocks, List.take_append_of_le_length (by omega), List.drop_append_of_le_length (by omega),
      ih hrest]

theorem blocks_add (count more : ℕ) (message : Bytes) :
    blocks (count + more) message = blocks count message ++ blocks more (message.drop (64 * count)) := by
  induction count generalizing message with
  | zero => rw [Nat.zero_add, blocks, List.nil_append, Nat.mul_zero, List.drop_zero]
  | succ count ih =>
    have hdrop : (message.drop 64).drop (64 * count) = message.drop (64 * (count + 1)) := by
      rw [List.drop_drop, Nat.mul_succ, Nat.add_comm]
    rw [Nat.add_right_comm, blocks, ih, blocks, hdrop, List.cons_append]

/-- A block and the blocks behind it. -/
theorem blocks_cons {block : Bytes} (h : block.length = 64) (count : ℕ) (rest : Bytes) :
    blocks (count + 1) (block ++ rest) = block :: blocks count rest := by
  rw [blocks, List.take_left' h, List.drop_left' h]

theorem blocks_one {block : Bytes} (h : block.length = 64) : blocks 1 block = [block] := by
  have hone := blocks_cons h 0 []
  rwa [List.append_nil] at hone

end Blocks

section Update
variable {context : Context} {seen data : Bytes}

/-- The full blocks of the text seen are in the state, and the rest of it is in the block. -/
structure Absorbed (seen : Bytes) (context : Context) : Prop where
  state : context.state = (blocks (seen.length / 64) seen).foldl transform initial
  size : context.blockSize = seen.length % 64
  held : context.block.take context.blockSize = seen.drop (64 * (seen.length / 64))

theorem absorbed_init (block : Block) : Absorbed [] (sha256Init block) :=
  ⟨rfl, rfl, rfl⟩

/-- The bytes that were held, with those copied behind them. -/
theorem Absorbed.copied (h : Absorbed seen context) (data : Bytes) :
    (copyInto context.block context.blockSize (data.take (context.amount data))).take
      (context.blockSize + context.amount data) =
      (seen ++ data.take (context.amount data)).drop (64 * (seen.length / 64)) := by
  have hroom : context.blockSize ≤ context.block.length := by
    rw [context.block_length]
    exact context.blockSize_lt.le
  have htake := @copyInto_take _ (data.take (context.amount data)) _ hroom
  rw [context.take_amount_length] at htake
  rw [htake, h.held, List.drop_append_of_le_length (Nat.mul_div_le ..)]

theorem Context.copy_full (hfull : context.blockSize + context.amount data = 64) :
    (context.copy data).state = transform context.state
        (copyInto context.block context.blockSize (data.take (context.amount data))) ∧
      (context.copy data).blockSize = 0 := by
  rw [copy, dif_pos hfull]
  exact ⟨rfl, rfl⟩

theorem Context.copy_partial (hfull : context.blockSize + context.amount data ≠ 64) :
    (context.copy data).state = context.state ∧
      (context.copy data).block =
        copyInto context.block context.blockSize (data.take (context.amount data)) ∧
      (context.copy data).blockSize = context.blockSize + context.amount data := by
  rw [copy, dif_neg hfull]
  exact ⟨rfl, rfl, rfl⟩

/-- A turn of the loop moves on over the bytes that it copies. -/
theorem Absorbed.copy (h : Absorbed seen context) (data : Bytes) :
    Absorbed (seen ++ data.take (context.amount data)) (context.copy data) := by
  have hsize := h.size
  have hlt := context.blockSize_lt
  have hlen : (seen ++ data.take (context.amount data)).length = seen.length + context.amount data := by
    rw [List.length_append, context.take_amount_length]
  by_cases hfull : context.blockSize + context.amount data = 64
  · have hcount : (seen.length + context.amount data) / 64 = seen.length / 64 + 1 := by omega
    have hblock := h.copied data
    obtain ⟨hstate, hzero⟩ := context.copy_full hfull
    rw [hfull, List.take_of_length_le (context.copied_length data).le] at hblock
    refine ⟨?_, ?_, ?_⟩
    · rw [hstate, hlen, hcount, blocks_add, blocks_append _ (Nat.mul_div_le ..), List.foldl_append, ← h.state,
        ← hblock, blocks_one (context.copied_length data)]
      rfl
    · omega
    · rw [hzero, List.take_zero, List.drop_eq_nil_of_le (by omega)]
  · have hcount : (seen.length + context.amount data) / 64 = seen.length / 64 := by
      unfold Context.amount at hfull ⊢
      omega
    obtain ⟨hstate, hblock, hmore⟩ := context.copy_partial hfull
    refine ⟨?_, ?_, ?_⟩
    · rw [hstate, hlen, hcount, blocks_append _ (Nat.mul_div_le ..), h.state]
    · rw [hmore, hlen]
      unfold Context.amount at hfull ⊢
      omega
    · rw [hblock, hmore, hlen, hcount, h.copied data]

theorem Absorbed.copyAll (h : Absorbed seen context) (data : Bytes) :
    Absorbed (seen ++ data) (context.copyAll data) := by
  induction context, data using Context.copyAll.induct generalizing seen with
  | case1 context =>
    rwa [Context.copyAll, dif_pos rfl, List.append_nil]
  | case2 context data hdata ih =>
    rw [Context.copyAll, dif_neg hdata]
    have hnext := ih (h.copy data)
    rwa [List.append_assoc, List.take_append_drop] at hnext

theorem copyAll_bitCount (context : Context) (data : Bytes) :
    (context.copyAll data).bitCount = context.bitCount := by
  induction context, data using Context.copyAll.induct with
  | case1 context => rw [Context.copyAll, dif_pos rfl]
  | case2 context data hdata ih =>
    rw [Context.copyAll, dif_neg hdata, ih, Context.copy]
    split <;> rfl

theorem Absorbed.update (h : Absorbed seen context) (data : Bytes) :
    Absorbed (seen ++ data) (sha256Update context data) :=
  @Absorbed.copyAll { context with bitCount := context.bitCount + UInt64.ofNat data.length * 8 } seen
    ⟨h.state, h.size, h.held⟩ data

theorem update_bitCount (block : Block) (text : Bytes) :
    (sha256Update (sha256Init block) text).bitCount = UInt64.ofNat (text.length * 8) := by
  rw [sha256Update, copyAll_bitCount]
  simp [sha256Init]

end Update

section Finish
variable {context : Context} {text : Bytes}

/-- Bytes that are written from the end of the block on downwards. -/
theorem foldl_set_last {block : Bytes} (h : block.length = 64) (value : ℕ → Byte) {count : ℕ} (hcount : count ≤ 64) :
    (List.range count).foldl (fun block index => block.set (63 - index) (value index)) block =
      block.take (64 - count) ++ (List.range count).map fun index => value (count - 1 - index) := by
  induction count with
  | zero => simp [List.take_of_length_le h.le]
  | succ count ih =>
    have hsplit :
        block.take (64 - count) = block.take (63 - count) ++ (block.drop (63 - count)).take 1 := by
      have hnext : 64 - count = 63 - count + 1 := by omega
      rw [hnext, List.take_add]
    have hlen : (block.take (63 - count)).length = 63 - count := by
      rw [List.length_take]
      omega
    have hone : ∃ byte, (block.drop (63 - count)).take 1 = [byte] := by
      rw [← List.length_eq_one_iff, List.length_take, List.length_drop]
      omega
    obtain ⟨byte, hone⟩ := hone
    have hexp : 64 - (count + 1) = 63 - count := by omega
    rw [List.range_succ, List.foldl_append, ih (by omega), hsplit, hone, List.foldl_cons, List.foldl_nil,
      List.append_assoc, List.set_append_right _ _ hlen.le, hlen, Nat.sub_self, ← List.range_succ,
      List.range_succ_eq_map, List.map_cons, List.map_map, hexp]
    have hmap : (List.range count).map (fun index => value (count - 1 - index)) =
        (List.range count).map ((fun index => value (count + 1 - 1 - index)) ∘ Nat.succ) := by
      refine List.map_congr_left fun index _ => ?_
      rw [Function.comp_apply]
      congr 1
      omega
    rw [hmap]
    rfl

/-- The bit count in the last bytes of the message. -/
def countBytes (bitCount : UInt64) : Bytes :=
  (List.range 8).map fun index => (bitCount >>> UInt64.ofNat ((7 - index) * 8)).toUInt8

theorem foldl_countBytes {block : Bytes} (h : block.length = 64) (bitCount : UInt64) :
    (List.range 8).foldl (fun block index =>
      block.set (63 - index) (bitCount >>> UInt64.ofNat (index * 8)).toUInt8) block =
        block.take 56 ++ countBytes bitCount :=
  foldl_set_last h (fun index => (bitCount >>> UInt64.ofNat (index * 8)).toUInt8) (by decide)

/-- The block that is filled up with zeros and the bit count. -/
theorem filled_block {block : Bytes} {size : ℕ} (h : block.length = 64) (hsize : size ≤ 56) (bitCount : UInt64) :
    (List.range 8).foldl (fun block index =>
      block.set (63 - index) (bitCount >>> UInt64.ofNat (index * 8)).toUInt8)
        (copyInto block size (List.replicate (56 - size) 0)) =
      block.take size ++ List.replicate (56 - size) 0 ++ countBytes bitCount := by
  have hroom : size + (List.replicate (56 - size) (0 : Byte)).length = 56 := by
    rw [List.length_replicate]
    omega
  have htake := @copyInto_take block (List.replicate (56 - size) 0) size (by omega)
  rw [hroom] at htake
  rw [foldl_countBytes (by rw [copyInto_length (by omega), h]), htake]

/-- The block behind the mark that closes the text. -/
theorem Absorbed.marked (h : Absorbed text context) :
    (context.block.set context.blockSize 0x80).take (context.blockSize + 1) =
      text.drop (64 * (text.length / 64)) ++ [0x80] := by
  have hlt := context.blockSize_lt
  have hlen := context.block_length
  rw [List.take_succ_eq_append_getElem (by rw [List.length_set]; omega), List.getElem_set_self,
    List.take_set_of_le (Nat.le_refl _), h.held]

/-- The padding as `padded` has it, behind the full blocks of the text. -/
theorem blocks_padded {more : ℕ} (hmore : (padded text).length = 64 * (text.length / 64 + more)) :
    (blocks ((padded text).length / 64) (padded text)).foldl transform initial =
      (blocks more (text.drop (64 * (text.length / 64)) ++
        (0x80 :: List.replicate ((119 - text.length % 64) % 64) 0 ++
          countBytes (UInt64.ofNat (text.length * 8))))).foldl transform
        ((blocks (text.length / 64) text).foldl transform initial) := by
  have hcount : (padded text).length / 64 = text.length / 64 + more := by omega
  have hpadded : padded text = text ++ (0x80 :: List.replicate ((119 - text.length % 64) % 64) 0 ++
      countBytes (UInt64.ofNat (text.length * 8))) := by
    rw [padded, ← List.append_assoc]
    rfl
  rw [hcount, hpadded, blocks_add, blocks_append _ (Nat.mul_div_le ..), List.foldl_append,
    List.drop_append_of_le_length (Nat.mul_div_le ..)]

theorem padded_length_eq (text : Bytes) :
    (padded text).length = text.length + 1 + (119 - text.length % 64) % 64 + 8 := by
  simp [padded]
  omega

/-- The padding of a text that leaves no room for the bit count in its last block. -/
theorem Absorbed.finish_late (h : Absorbed text context)
    (hcount : context.bitCount = UInt64.ofNat (text.length * 8)) (hlate : context.blockSize + 1 > 56) :
    context.finish = (blocks ((padded text).length / 64) (padded text)).foldl transform initial := by
  have hlt := context.blockSize_lt
  have hsize := h.size
  have hlength := padded_length_eq text
  have hmarked : (context.block.set context.blockSize 0x80).length = 64 := by
    rw [List.length_set, context.block_length]
  have hzeros : (119 - text.length % 64) % 64 = 64 - (context.blockSize + 1) + 56 := by omega
  have hroom : context.blockSize + 1 + (List.replicate (64 - (context.blockSize + 1)) (0 : Byte)).length =
      64 := by
    rw [List.length_replicate]
    omega
  have hfull : (copyInto (context.block.set context.blockSize 0x80) (context.blockSize + 1)
      (List.replicate (64 - (context.blockSize + 1)) 0)).length = 64 := by
    rw [copyInto_length (by omega), hmarked]
  have htext := @copyInto_take (context.block.set context.blockSize 0x80)
    (List.replicate (64 - (context.blockSize + 1)) 0) (context.blockSize + 1) (by omega)
  rw [hroom, List.take_of_length_le hfull.le, h.marked, List.append_assoc, List.singleton_append] at htext
  have hlast : (List.replicate 56 0 ++ countBytes context.bitCount).length = 64 := rfl
  rw [@blocks_padded text 2 (by omega), ← h.state, hzeros, List.replicate_add, ← hcount,
    ← List.cons_append, List.append_assoc, ← List.append_assoc, ← htext, blocks_cons hfull, blocks_one hlast]
  unfold Context.finish
  dsimp only
  rw [if_pos hlate, filled_block hfull (Nat.zero_le _)]
  rfl

/-- The padding of a text whose last block has room for the bit count. -/
theorem Absorbed.finish_early (h : Absorbed text context)
    (hcount : context.bitCount = UInt64.ofNat (text.length * 8)) (hearly : context.blockSize + 1 ≤ 56) :
    context.finish = (blocks ((padded text).length / 64) (padded text)).foldl transform initial := by
  have hsize := h.size
  have hlength := padded_length_eq text
  have hmarked : (context.block.set context.blockSize 0x80).length = 64 := by
    rw [List.length_set, context.block_length]
  have hzeros : (119 - text.length % 64) % 64 = 56 - (context.blockSize + 1) := by omega
  have hfilled := filled_block hmarked hearly context.bitCount
  rw [h.marked, List.append_assoc, List.append_assoc, List.singleton_append] at hfilled
  have hlen : (text.drop (64 * (text.length / 64)) ++
      0x80 :: (List.replicate (56 - (context.blockSize + 1)) 0 ++ countBytes context.bitCount)).length = 64 := by
    simp only [List.length_append, List.length_drop, List.length_cons, List.length_replicate, countBytes,
      List.length_map, List.length_range]
    omega
  rw [@blocks_padded text 1 (by omega), ← h.state, hzeros, ← hcount, List.cons_append, blocks_one hlen]
  unfold Context.finish
  dsimp only
  rw [if_neg (Nat.not_lt.mpr hearly), hfilled]
  rfl

/-- The padding of the closed form, in the one or two blocks that the context fills. -/
theorem Absorbed.finish (h : Absorbed text context)
    (hcount : context.bitCount = UInt64.ofNat (text.length * 8)) :
    context.finish = (blocks ((padded text).length / 64) (padded text)).foldl transform initial := by
  rcases Nat.lt_or_ge 56 (context.blockSize + 1) with hlate | hearly
  · exact h.finish_late hcount hlate
  · exact h.finish_early hcount hearly

end Finish

section Output

theorem digits_getD {value : UInt8} (h : value.toNat < 16) :
    digits.getD value.toNat 0 = hexDigit value := by
  have hall : ∀ n : Fin 16, digits.getD n 0 = hexDigit (UInt8.ofNat n) := by decide +kernel
  have hvalue := hall ⟨value.toNat, h⟩
  rwa [UInt8.ofNat_toNat] at hvalue

theorem high_toNat (byte : UInt8) : (byte >>> 4).toNat = byte.toNat / 16 := by
  rw [UInt8.toNat_shiftRight, Nat.shiftRight_eq_div_pow]
  rfl

theorem low_toNat (byte : UInt8) : (byte &&& 15).toNat = byte.toNat % 16 := by
  rw [UInt8.toNat_and]
  exact Nat.and_two_pow_sub_one_eq_mod byte.toNat 4

theorem digitPair_eq_hexByte (byte : UInt8) : digitPair byte = hexByte byte := by
  have hbyte := byte.toNat_lt
  have hhigh : (byte >>> 4).toNat < 16 := by
    rw [high_toNat]
    omega
  have hlow : (byte &&& 15).toNat < 16 := by
    rw [low_toNat]
    omega
  rw [digitPair, digits_getD hhigh, digits_getD hlow, hexByte]

theorem flatMap_wordBytes (word : UInt32) : (wordBytes word).flatMap digitPair = hexWord word := by
  simp [wordBytes, hexWord, digitPair_eq_hexByte]

/-- The fingerprint that `sha256_hex` leaves is that of the closed form. -/
theorem sha256Output_eq (block : Block) (text : Bytes) :
    sha256Output block text = sha256Hex (cstr text) ++ [0] := by
  have habsorbed := (absorbed_init block).update (cstr text)
  rw [List.nil_append] at habsorbed
  rw [sha256Output, habsorbed.finish (update_bitCount block (cstr text))]
  simp only [List.flatMap_cons, List.flatMap_nil, List.append_nil, List.flatMap_append, flatMap_wordBytes,
    sha256Hex, List.append_assoc]

end Output

end Morpheus.Sha256
