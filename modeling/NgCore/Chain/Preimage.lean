/-
# NgCore.Chain.Preimage — one proof of work, several headers

The work of a header is over a fixed layout, `GetPoWRawHeader` of `ngtypes/block_header.go`; its identity is the hash
of its RLP. `Difficulty` and `BaseFee` are copied into their 32-byte slots reversed and padded, so the layout forgets
leading zero bytes, and bytes of `Difficulty` above the low 32; the RLP does not. The header's comments call the two
fields minimal, and neither `CheckError` nor `checkStandaloneError` looks at more than their length.

* Two admitted headers with one preimage are equal exactly when they SPELL the two numbers alike.
* Along a chain of minimal headers every block and every uncle has a preimage of its own.
* A header and its zero-extended twin both pass as uncles of one block, and the block mints a reward for each.

DELIVERABLES: `BlockHeader.eq_iff_sameSpelling`, `work_twice_handTwins`.
-/
import NgCore.Chain.Uncles
import NgCore.Chain.History

namespace NgCore

open Lib.Rlp (beVal)

/-! ## §1 — the slots of the layout -/

@[simp] theorem length_packUint64LE (n : Nat) : (packUint64LE n).length = 8 := by
  simp [packUint64LE]

theorem packUint64LE_inj {m n : Nat} (hm : m < 2 ^ 64) (hn : n < 2 ^ 64) (h : packUint64LE m = packUint64LE n) :
    m = n := by
  have hdigit : ∀ i < 8, m / 256 ^ i % 256 = n / 256 ^ i % 256 := by
    intro i hi
    have hbyte := List.map_inj_left.mp h i (List.mem_range.mpr hi)
    have hnat := congrArg UInt8.toNat hbyte
    simpa [UInt8.toNat_ofNat, Nat.mod_mod] using hnat
  have h0 := hdigit 0 (by omega)
  have h1 := hdigit 1 (by omega)
  have h2 := hdigit 2 (by omega)
  have h3 := hdigit 3 (by omega)
  have h4 := hdigit 4 (by omega)
  have h5 := hdigit 5 (by omega)
  have h6 := hdigit 6 (by omega)
  have h7 := hdigit 7 (by omega)
  norm_num at h0 h1 h2 h3 h4 h5 h6 h7
  omega

/-- Strings of one length with one slot agree in what the slot holds. -/
theorem take_eq_of_copy32 {a b : Bytes} (hlen : a.length = b.length) (h : copy32 a = copy32 b) :
    a.take 32 = b.take 32 := by
  have hval := congrArg Subtype.val h
  simp only [copy32, hlen] at hval
  exact List.append_cancel_right hval

/-- The slot pads with zeros: a string that ends in another byte is no longer than what shares its slot. -/
theorem length_le_of_copy32 {a b : Bytes} (hlast : b.getLast? ≠ some 0) (hle : b.length ≤ 32)
    (h : copy32 a = copy32 b) : b.length ≤ a.length := by
  by_contra hlong
  have hval : (a.take 32 ++ List.replicate (32 - a.length) 0)[b.length - 1]? =
      (b.take 32 ++ List.replicate (32 - b.length) 0)[b.length - 1]? :=
    congrArg (fun x : Bytes32 => x.val[b.length - 1]?) h
  have hleft : (a.take 32 ++ List.replicate (32 - a.length) 0)[b.length - 1]? = some 0 := by
    rw [List.getElem?_append_right (by simp; omega), List.getElem?_replicate, if_pos (by simp; omega)]
  have hright : (b.take 32 ++ List.replicate (32 - b.length) 0)[b.length - 1]? = b.getLast? := by
    rw [List.getElem?_append_left (by simp; omega), List.take_of_length_le hle, List.getLast?_eq_getElem?]
  exact hlast (hright.symm.trans (hval.symm.trans hleft))

/-! ## §2 — spelling -/

namespace BlockHeader

/-- The machine words of a header are in range. -/
def Words (x : BlockHeader) : Prop := x.height < 2 ^ 64 ∧ x.timestamp < 2 ^ 64

/-- **`SameSpelling x y`** — the two numbers are written with as many bytes, and the bytes of `Difficulty` above its
slot are the same. -/
def SameSpelling (x y : BlockHeader) : Prop :=
  x.difficulty.length = y.difficulty.length ∧ x.baseFee.length = y.baseFee.length ∧
    x.difficulty.reverse.drop 32 = y.difficulty.reverse.drop 32

/-- **`Minimal x`** — the two numbers as the header's comments have them: at most 32 bytes, no leading zero. -/
def Minimal (x : BlockHeader) : Prop :=
  x.difficulty.head? ≠ some 0 ∧ x.difficulty.length ≤ diffSize ∧ x.baseFee.head? ≠ some 0

/-- **`Sized x`** — what both standalone checks ask of the other fields. -/
structure Sized (x : BlockHeader) : Prop where
  prevBlockHash : x.prevBlockHash.length = hashSize
  txTrieHash : x.txTrieHash.length = hashSize
  witnessRoot : x.witnessRoot.length = hashSize
  coinbase : x.coinbase.length = addressSize
  unclesHash : x.unclesHash.length = hashSize
  stateRoot : x.stateRoot.length = hashSize
  baseFee : x.baseFee.length ≤ diffSize
  nonce : x.nonce.length = nonceSize

/-- **`Slots x y`** — two headers fill every slot of the layout alike. -/
structure Slots (x y : BlockHeader) : Prop where
  network : x.network = y.network
  height : packUint64LE x.height = packUint64LE y.height
  timestamp : packUint64LE x.timestamp = packUint64LE y.timestamp
  prevBlockHash : copy32 x.prevBlockHash = copy32 y.prevBlockHash
  txTrieHash : copy32 x.txTrieHash = copy32 y.txTrieHash
  witnessRoot : copy32 x.witnessRoot = copy32 y.witnessRoot
  difficulty : copy32 x.difficulty.reverse = copy32 y.difficulty.reverse
  coinbase : copy32 x.coinbase = copy32 y.coinbase
  unclesHash : copy32 x.unclesHash = copy32 y.unclesHash
  stateRoot : copy32 x.stateRoot = copy32 y.stateRoot
  baseFee : copy32 x.baseFee.reverse = copy32 y.baseFee.reverse
  nonce : (x.nonce ++ List.replicate 8 0).take 8 = (y.nonce ++ List.replicate 8 0).take 8

/-- The slots have fixed sizes, so the layout falls apart into them. -/
theorem slots_of_getPoWRawHeader {x y : BlockHeader} (h : x.getPoWRawHeader = y.getPoWRawHeader) : Slots x y := by
  have hslot : ∀ a b : Bytes32, a.val.length = b.val.length := fun a b => a.property.trans b.property.symm
  simp only [getPoWRawHeader, List.cons.injEq] at h
  rcases h with ⟨hnetwork, h⟩
  -- peeled from the right, one slot at a time
  rcases List.append_inj' h (by simp) with ⟨h, hnonce⟩
  rcases List.append_inj' h (hslot _ _) with ⟨h, hbaseFee⟩
  rcases List.append_inj' h (hslot _ _) with ⟨h, hstateRoot⟩
  rcases List.append_inj' h (hslot _ _) with ⟨h, hunclesHash⟩
  rcases List.append_inj' h (hslot _ _) with ⟨h, hcoinbase⟩
  rcases List.append_inj' h (hslot _ _) with ⟨h, hdifficulty⟩
  rcases List.append_inj' h (hslot _ _) with ⟨h, hwitnessRoot⟩
  rcases List.append_inj' h (hslot _ _) with ⟨h, htxTrieHash⟩
  rcases List.append_inj' h (hslot _ _) with ⟨h, hprev⟩
  rcases List.append_inj' h (by simp) with ⟨hheight, htimestamp⟩
  exact ⟨hnetwork, hheight, htimestamp, Subtype.ext hprev, Subtype.ext htxTrieHash, Subtype.ext hwitnessRoot,
    Subtype.ext hdifficulty, Subtype.ext hcoinbase, Subtype.ext hunclesHash, Subtype.ext hstateRoot,
    Subtype.ext hbaseFee, hnonce⟩

theorem eq_of_copy32 {a b : Bytes} (ha : a.length = 32) (hb : b.length = 32) (h : copy32 a = copy32 b) : a = b := by
  rw [copy32_of_length a ha, copy32_of_length b hb] at h
  exact congrArg Subtype.val h

theorem eq_of_copy32_reverse {a b : Bytes} (hlen : a.length = b.length) (hdrop : a.reverse.drop 32 = b.reverse.drop 32)
    (h : copy32 a.reverse = copy32 b.reverse) : a = b := by
  have htake := take_eq_of_copy32 (by simpa using hlen) h
  apply List.reverse_injective
  rw [← List.take_append_drop 32 a.reverse, htake, hdrop, List.take_append_drop]

theorem eq_of_slots {x y : BlockHeader} (hx : x.Sized) (hy : y.Sized) (hxw : x.Words) (hyw : y.Words)
    (h : Slots x y) (hspell : SameSpelling x y) : x = y := by
  have hnonce : x.nonce = y.nonce := by
    have := h.nonce
    rwa [List.take_append_of_le_length (by rw [hx.nonce]; decide), List.take_of_length_le (by rw [hx.nonce]; decide),
      List.take_append_of_le_length (by rw [hy.nonce]; decide),
      List.take_of_length_le (by rw [hy.nonce]; decide)] at this
  have hbaseFee : x.baseFee = y.baseFee := by
    refine eq_of_copy32_reverse hspell.2.1 ?_ h.baseFee
    rw [List.drop_eq_nil_of_le (by rw [List.length_reverse]; exact hx.baseFee),
      List.drop_eq_nil_of_le (by rw [List.length_reverse]; exact hy.baseFee)]
  have hdifficulty := eq_of_copy32_reverse hspell.1 hspell.2.2 h.difficulty
  have hheight := packUint64LE_inj hxw.1 hyw.1 h.height
  have htimestamp := packUint64LE_inj hxw.2 hyw.2 h.timestamp
  have hprev := eq_of_copy32 hx.prevBlockHash hy.prevBlockHash h.prevBlockHash
  have htxTrieHash := eq_of_copy32 hx.txTrieHash hy.txTrieHash h.txTrieHash
  have hwitnessRoot := eq_of_copy32 hx.witnessRoot hy.witnessRoot h.witnessRoot
  have hcoinbase := eq_of_copy32 hx.coinbase hy.coinbase h.coinbase
  have hunclesHash := eq_of_copy32 hx.unclesHash hy.unclesHash h.unclesHash
  have hstateRoot := eq_of_copy32 hx.stateRoot hy.stateRoot h.stateRoot
  have hnetwork := h.network
  cases x
  cases y
  simp_all

theorem sameSpelling_of_minimal {x y : BlockHeader} (hxf : x.baseFee.length ≤ diffSize)
    (hyf : y.baseFee.length ≤ diffSize) (hx : x.Minimal) (hy : y.Minimal) (h : Slots x y) : SameSpelling x y := by
  have hlen : ∀ {a b : Bytes}, a.head? ≠ some 0 → b.head? ≠ some 0 → a.length ≤ 32 → b.length ≤ 32 →
      copy32 a.reverse = copy32 b.reverse → a.length = b.length := by
    intro a b ha hb hale hble heq
    refine le_antisymm ?_ ?_
    · simpa using length_le_of_copy32 (a := b.reverse) (b := a.reverse) (by simpa using ha) (by simpa using hale)
        heq.symm
    · simpa using length_le_of_copy32 (a := a.reverse) (b := b.reverse) (by simpa using hb) (by simpa using hble) heq
  refine ⟨hlen hx.1 hy.1 hx.2.1 hy.2.1 h.difficulty, hlen hx.2.2 hy.2.2 hxf hyf h.baseFee, ?_⟩
  rw [List.drop_eq_nil_of_le (by rw [List.length_reverse]; exact hx.2.1),
    List.drop_eq_nil_of_le (by rw [List.length_reverse]; exact hy.2.1)]

/-! ## §3 — admitted headers -/

variable [Crypto]

/-- **`Admitted x`** — the header of a block that passes `CheckError`, or a header that passes as an uncle. -/
def Admitted (x : BlockHeader) : Prop :=
  (∃ (now : Nat) (b : FullBlock), b.header = x ∧ b.checkError now = .ok ()) ∨
    ∃ now : Nat, x.checkStandaloneError now = .ok ()

theorem sized_of_checkError {now : Nat} {b : FullBlock} (h : b.checkError now = .ok ()) : b.header.Sized := by
  have hc := FullBlock.checkError_eq_ok.mp h
  refine ⟨hc.prevBlockHash, hc.txTrieHash, ?_, hc.coinbase, hc.unclesHashSize, hc.stateRoot, hc.baseFee, hc.nonce⟩
  rw [← hc.witnessRoot]
  exact (calcWitnessRoot b.txs b.commits).property

theorem sized_of_checkStandaloneError {now : Nat} {x : BlockHeader} (h : x.checkStandaloneError now = .ok ()) :
    x.Sized := by
  simp only [checkStandaloneError, bind_eq_ok, ensure_eq_ok, exists_const] at h
  rcases h with ⟨⟨hprev, htxs, hwitness, huncles, hstate, hcoinbase⟩, _, hfee, hnonce, _⟩
  exact ⟨hprev, htxs, hwitness, hcoinbase, huncles, hstate, hfee, hnonce⟩

theorem Admitted.sized {x : BlockHeader} (h : x.Admitted) : x.Sized := by
  rcases h with ⟨now, b, rfl, h⟩ | ⟨now, h⟩
  · exact sized_of_checkError h
  · exact sized_of_checkStandaloneError h

end BlockHeader

/-! ## §4 — along a chain -/

section Chains

variable [Crypto]

theorem checkStandaloneError_of_checkUncles {now : Nat} {prevBlockHash : Bytes} {uncles : List BlockHeader} :
    ∀ {seenUncle : List Bytes32}, FullBlock.checkUncles now prevBlockHash seenUncle uncles = .ok () →
      ∀ u ∈ uncles, u.checkStandaloneError now = .ok () := by
  induction uncles with
  | nil => exact fun _ => nofun
  | cons w uncles ih =>
    intro seenUncle h
    rcases bind_eq_ok.mp h with ⟨_, hw, h⟩
    rcases bind_eq_ok.mp h with ⟨_, _, h⟩
    rcases bind_eq_ok.mp h with ⟨_, _, h⟩
    exact List.forall_mem_cons.mpr ⟨hw, ih h⟩

/-- Above the genesis block every header of a checked chain passed a standalone check. -/
theorem CheckedChain.admitted {l : List FullBlock} (h : CheckedChain l) :
    ∀ x ∈ chainHeaders l, x.height ≠ 0 → x.Admitted := by
  induction h with
  | @genesis network g hg =>
    rintro x ⟨b, hb, hx⟩ hheight
    obtain rfl := List.mem_singleton.mp hb
    rw [getGenesisBlock_uncles hg] at hx
    rcases hx with rfl | hx
    · exact absurd (getGenesisBlock_ok hg).2.1 hheight
    · exact absurd hx List.not_mem_nil
  | @extend now getBlock block prev l _ _ hcheck ih =>
    rintro x ⟨b, hb, hx⟩ hheight
    rcases bind_eq_ok.mp hcheck with ⟨_, hblock, _⟩
    rcases List.mem_cons.mp hb with rfl | hb
    · rcases hx with rfl | hx
      · exact .inl ⟨now, b, rfl, hblock⟩
      · exact .inr ⟨now, checkStandaloneError_of_checkUncles (FullBlock.checkError_eq_ok.mp hblock).uncles x hx⟩
    · exact ih x ⟨b, hb, hx⟩ hheight

theorem Descends.eq_of_height {l : List FullBlock} (h : Descends l) :
    ∀ b ∈ l, ∀ c ∈ l, b.getHeight = c.getHeight → b = c := by
  induction l with
  | nil => exact nofun
  | cons top l ih =>
    have hbelow := h.height_le
    have hrest : ∀ b ∈ l, ∀ c ∈ l, b.getHeight = c.getHeight → b = c := by
      cases l with
      | nil => exact nofun
      | cons p l => exact ih (descends_cons.mp h).2
    intro b hb c hc heq
    rcases List.mem_cons.mp hb with rfl | hb'
    · rcases List.mem_cons.mp hc with rfl | hc'
      · rfl
      · exact absurd heq (hbelow c hc').ne'
    · rcases List.mem_cons.mp hc with rfl | hc'
      · exact absurd heq (hbelow b hb').ne
      · exact hrest b hb' c hc' heq

theorem Descends.nodup {l : List FullBlock} (h : Descends l) : l.Nodup := by
  induction l with
  | nil => exact List.nodup_nil
  | cons top l ih =>
    have hrest : l.Nodup := by
      cases l with
      | nil => exact List.nodup_nil
      | cons p l => exact ih (descends_cons.mp h).2
    exact List.nodup_cons.mpr ⟨fun hmem => (h.height_le top hmem).ne rfl, hrest⟩

theorem CheckedChain.nodup_earners {l : List FullBlock} (h : CheckedChain l)
    (hinj : Set.InjOn BlockHeader.getHash (chainHeaders l)) : (earners l).Nodup := by
  have hkin := h.kinship hinj
  refine List.Nodup.append ?_ ?_ ?_
  · refine List.Nodup.map_on ?_ h.descends.nodup
    intro b hb c hc heq
    exact h.descends.eq_of_height b hb c hc (congrArg BlockHeader.height heq)
  · have honce := hkin.once
    rw [← List.map_flatMap] at honce
    exact honce.of_map
  · intro x hblock huncle
    rcases List.mem_map.mp hblock with ⟨c, hc, rfl⟩
    rcases List.mem_flatMap.mp huncle with ⟨b, hb, hu⟩
    exact hkin.aside b hb _ hu c hc rfl

/-- Headers of a chain with one preimage and one spelling are equal. -/
theorem CheckedChain.eq_of_getPoWRawHeader {l : List FullBlock} (h : CheckedChain l)
    (hinj : Set.InjOn BlockHeader.getHash (chainHeaders l)) (hwords : ∀ x ∈ chainHeaders l, x.Words)
    {x y : BlockHeader} (hx : x ∈ chainHeaders l) (hy : y ∈ chainHeaders l)
    (hpow : x.getPoWRawHeader = y.getPoWRawHeader) (hspell : x.SameSpelling y) : x = y := by
  have hslots := BlockHeader.slots_of_getPoWRawHeader hpow
  have hheight := packUint64LE_inj (hwords x hx).1 (hwords y hy).1 hslots.height
  by_cases hzero : x.height = 0
  · -- at height zero there is the genesis block and no uncle
    have hblock : ∀ z ∈ chainHeaders l, z.height = 0 → ∃ b ∈ l, z = b.header := by
      rintro z ⟨b, hb, hz | hz⟩ hz0
      · exact ⟨b, hb, hz⟩
      · rcases (h.kinship hinj).parent b hb z hz with ⟨p, _, _, hp, _⟩
        omega
    rcases hblock x hx hzero with ⟨b, hb, rfl⟩
    rcases hblock y hy (hheight ▸ hzero) with ⟨c, hc, rfl⟩
    rw [h.descends.eq_of_height b hb c hc hheight]
  · exact BlockHeader.eq_of_slots (h.admitted x hx hzero).sized (h.admitted y hy (hheight ▸ hzero)).sized
      (hwords x hx) (hwords y hy) hslots hspell

/-- **One proof of work is one header, up to spelling.** Admitted headers with one preimage are equal exactly when
they spell `Difficulty` and `BaseFee` alike, which minimal ones do; and the blocks and uncles of a checked chain have
pairwise different preimages exactly when no two of them with one preimage differ in spelling. -/
theorem BlockHeader.eq_iff_sameSpelling :
    (∀ x y : BlockHeader, x.Admitted → y.Admitted → x.Words → y.Words → x.getPoWRawHeader = y.getPoWRawHeader →
      (x = y ↔ x.SameSpelling y) ∧ (x.Minimal → y.Minimal → x.SameSpelling y)) ∧
    ∀ l : List FullBlock, CheckedChain l → Set.InjOn BlockHeader.getHash (chainHeaders l) →
      (∀ x ∈ chainHeaders l, x.Words) →
      (((earners l).map BlockHeader.getPoWRawHeader).Nodup ↔
        ∀ x ∈ earners l, ∀ y ∈ earners l, x.getPoWRawHeader = y.getPoWRawHeader → x.SameSpelling y) := by
  refine ⟨fun x y hx hy hxw hyw hpow => ⟨⟨?_, ?_⟩, ?_⟩, fun l hl hinj hwords => ⟨?_, ?_⟩⟩
  · rintro rfl
    exact ⟨rfl, rfl, rfl⟩
  · exact eq_of_slots hx.sized hy.sized hxw hyw (slots_of_getPoWRawHeader hpow)
  · intro hxm hym
    exact sameSpelling_of_minimal hx.sized.baseFee hy.sized.baseFee hxm hym (slots_of_getPoWRawHeader hpow)
  · intro hnodup x hx y hy hpow
    obtain rfl := List.inj_on_of_nodup_map hnodup hx hy hpow
    exact ⟨rfl, rfl, rfl⟩
  · intro hspell
    refine List.Nodup.map_on ?_ (hl.nodup_earners hinj)
    intro x hx y hy hpow
    exact hl.eq_of_getPoWRawHeader hinj hwords (mem_earners.mp hx) (mem_earners.mp hy) hpow (hspell x hx y hy hpow)

/-- A header whose `Difficulty` is written with one more zero. -/
def handRespelled (x : BlockHeader) : BlockHeader := { x with difficulty := 0 :: x.difficulty }

/-- What a nephew owes the miner of the hand-made uncle. -/
def handUncleMint : FullTx := handMint 2 (handAddr 2) (uncleReward 1 2)

/-- A nephew that references the uncle and its twin, with a mint for each. -/
def handTwins : List FullBlock := handKin [handUncleMint, handUncleMint] [handUncle, handRespelled handUncle]

instance (x : BlockHeader) : Decidable x.Words := inferInstanceAs (Decidable (_ ∧ _))

end Chains

/-- A chain with one uncle keeps its preimages apart; the twin of the uncle is told from it by spelling alone. -/
theorem eq_iff_sameSpelling_handKin :
    letI := Engine.bare
    (handUncle = handRespelled handUncle ↔ handUncle.SameSpelling (handRespelled handUncle)) ∧
      (((earners (handKin [] [handUncle])).map BlockHeader.getPoWRawHeader).Nodup ↔
        ∀ x ∈ earners (handKin [] [handUncle]), ∀ y ∈ earners (handKin [] [handUncle]),
          x.getPoWRawHeader = y.getPoWRawHeader → x.SameSpelling y) := by
  let _ := Engine.bare
  have hchain : CheckedChain (handKin [] [handUncle]) := checkedChain_handKin [] [handUncle] (by decide +kernel)
  have hwords : ∀ x ∈ chainHeaders (handKin [] [handUncle]), x.Words := by
    intro x hx
    exact (by decide +kernel : ∀ x ∈ earners (handKin [] [handUncle]), x.Words) x (mem_earners.mpr hx)
  refine ⟨(BlockHeader.eq_iff_sameSpelling.1 handUncle (handRespelled handUncle) (.inr ⟨handNow, ?_⟩)
    (.inr ⟨handNow, ?_⟩) ?_ ?_ ?_).1,
    BlockHeader.eq_iff_sameSpelling.2 _ hchain (injOn_chainHeaders (by decide +kernel)) hwords⟩
  all_goals decide +kernel

/-- **One proof of work earns two uncle rewards**: the uncle and its twin pass, share their preimage, and are both
referenced and paid for by a block of an accepted chain. -/
theorem work_twice_handTwins :
    letI := Engine.bare
    CheckedChain handTwins ∧ Set.InjOn BlockHeader.getHash (chainHeaders handTwins) ∧
      (∀ x ∈ chainHeaders handTwins, x.Words) ∧
      handUncle.checkStandaloneError handNow = .ok () ∧ (handRespelled handUncle).checkStandaloneError handNow = .ok () ∧
      handUncle.getPoWRawHeader = (handRespelled handUncle).getPoWRawHeader ∧ handUncle ≠ handRespelled handUncle ∧
      ∃ n, Node.Reachable ⟨ZERONET, false⟩ {x | x ∈ (handTwins.reverse.tail ++ []).map FullBlock.header} n ∧
        handTwins.map (fun b => b.getHash.val) = n.store.latestHash :: handTwins.tail.map (fun b => b.getHash.val) ∧
        n.state.getBalance (handAddr 2) = uncleReward 1 2 + uncleReward 1 2 := by
  let _ := Engine.bare
  have hchain : CheckedChain handTwins :=
    checkedChain_handKin [handUncleMint, handUncleMint] [handUncle, handRespelled handUncle] (by decide +kernel)
  have hwords : ∀ x ∈ chainHeaders handTwins, x.Words := by
    intro x hx
    exact (by decide +kernel : ∀ x ∈ earners handTwins, x.Words) x (mem_earners.mpr hx)
  obtain ⟨n, hreach, _, htest⟩ := exists_reachable_byHand (fun _ => none) false handTwins.reverse.tail []
    (fun n => decide (handTwins.map (fun b => b.getHash.val) =
        n.store.latestHash :: handTwins.tail.map (fun b => b.getHash.val) ∧
      n.state.getBalance (handAddr 2) = uncleReward 1 2 + uncleReward 1 2)) (by decide +kernel)
  refine ⟨hchain, injOn_chainHeaders ?_, hwords, ?_, ?_, ?_, ?_, n, hreach, of_decide_eq_true htest⟩
  all_goals decide +kernel

end NgCore
