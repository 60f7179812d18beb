/-
# Lib.Rlp — recursive length-prefix encoding, and why it is injective

Items are byte strings or lists of items. `encode` is the canonical encoding: one byte below `0x80`
stands for itself, everything else carries a header with its payload length (short form below 56
bytes, length-of-length form above). Naturals travel as their minimal big-endian bytes.

DELIVERABLE: `encode_append_inj` — the encoding is PREFIX-injective (two encodings that agree up to
arbitrary suffixes are encodings of the same item), for payloads whose length fits in 64 bits, which
is the range the length-of-length form covers. `encode_inj` and `beBytes_inj` are its corollaries.
-/
import Mathlib

namespace Lib.Rlp

/-! ## §1 — minimal big-endian naturals -/

/-- Digits of `n` in base 256 pushed in front of `acc`; `fuel ≥ n` digits are always enough. -/
def beAux : Nat → Nat → List UInt8 → List UInt8
  | 0, _, acc => acc
  | fuel + 1, n, acc => if n = 0 then acc else beAux fuel (n / 256) (UInt8.ofNat (n % 256) :: acc)

/-- **`beBytes`** — the minimal big-endian bytes of a natural; zero is the empty string. -/
def beBytes (n : Nat) : List UInt8 := beAux n n []

/-- **`beVal`** — the natural a big-endian byte string stands for. -/
def beVal (b : List UInt8) : Nat := b.foldl (fun a x => a * 256 + x.toNat) 0

theorem foldl_be (b : List UInt8) (a : Nat) :
    b.foldl (fun a x => a * 256 + x.toNat) a = a * 256 ^ b.length + beVal b := by
  induction b generalizing a with
  | nil => simp [beVal]
  | cons x b ih =>
    have hval : beVal (x :: b) = x.toNat * 256 ^ b.length + beVal b := by
      rw [beVal, List.foldl_cons, ih]
      simp
    rw [List.foldl_cons, ih, hval, List.length_cons]
    ring

theorem beVal_cons (x : UInt8) (b : List UInt8) :
    beVal (x :: b) = x.toNat * 256 ^ b.length + beVal b := by
  rw [beVal, List.foldl_cons, foldl_be]
  simp

theorem beVal_beAux (fuel n : Nat) (acc : List UInt8) (h : n ≤ fuel) :
    beVal (beAux fuel n acc) = n * 256 ^ acc.length + beVal acc := by
  induction fuel generalizing n acc with
  | zero =>
    obtain rfl : n = 0 := by omega
    simp [beAux]
  | succ fuel ih =>
    by_cases hn : n = 0
    · simp [beAux, hn]
    · have hdigit : (UInt8.ofNat (n % 256)).toNat = n % 256 := by simp
      have hsplit : n = n / 256 * 256 + n % 256 := by omega
      rw [beAux, if_neg hn, ih _ _ (by omega), beVal_cons, hdigit, List.length_cons, pow_succ]
      nth_rewrite 3 [hsplit]
      ring

@[simp] theorem beVal_beBytes (n : Nat) : beVal (beBytes n) = n := by
  rw [beBytes, beVal_beAux n n [] le_rfl]
  simp [beVal]

theorem beBytes_inj {m n : Nat} (h : beBytes m = beBytes n) : m = n := by
  rw [← beVal_beBytes m, h, beVal_beBytes]

theorem length_beAux_le (fuel n k : Nat) (acc : List UInt8) (h : n < 256 ^ k) :
    (beAux fuel n acc).length ≤ k + acc.length := by
  induction fuel generalizing n k acc with
  | zero => simp [beAux]
  | succ fuel ih =>
    by_cases hn : n = 0
    · simp [beAux, hn]
    · cases k with
      | zero => simp at h; omega
      | succ k =>
        have hdiv : n / 256 < 256 ^ k := by
          rw [pow_succ] at h
          omega
        have := ih (n / 256) k (UInt8.ofNat (n % 256) :: acc) hdiv
        rw [beAux, if_neg hn]
        simp only [List.length_cons] at this
        omega

theorem length_beBytes_le {n k : Nat} (h : n < 256 ^ k) : (beBytes n).length ≤ k := by
  simpa [beBytes] using length_beAux_le n n k [] h

theorem beBytes_ne_nil {n : Nat} (h : n ≠ 0) : beBytes n ≠ [] := by
  intro hnil
  have := beVal_beBytes n
  rw [hnil] at this
  exact h (by simpa [beVal] using this.symm)

@[simp] theorem beBytes_zero : beBytes 0 = [] := rfl

/-! ## §2 — items and their encoding -/

/-- **`Item`** — what the wire format carries. -/
inductive Item where
  | str (b : List UInt8)
  | list (items : List Item)

/-- A natural as an item. -/
def Item.nat (n : Nat) : Item := .str (beBytes n)

/-- **`header`** — the length prefix of a payload of `n` bytes; `off` is `128` for strings and `192`
for lists. -/
def header (off n : Nat) : List UInt8 :=
  if n < 56 then [UInt8.ofNat (off + n)]
  else UInt8.ofNat (off + 55 + (beBytes n).length) :: beBytes n

/-- **`encodeStr`** — a byte string: a lone byte below `0x80` stands for itself. -/
def encodeStr : List UInt8 → List UInt8
  | [x] => if x < 0x80 then [x] else header 128 1 ++ [x]
  | b => header 128 b.length ++ b

mutual
/-- **`encode`** — the canonical encoding of an item. -/
def encode : Item → List UInt8
  | .str b => encodeStr b
  | .list items => header 192 (encodeAll items).length ++ encodeAll items

/-- The concatenated encodings of a list of items. -/
def encodeAll : List Item → List UInt8
  | [] => []
  | i :: rest => encode i ++ encodeAll rest
end

/-! ## §3 — injectivity -/

theorem toNat_ofNat_lt {n : Nat} (h : n < 256) : (UInt8.ofNat n).toNat = n := by
  simp [Nat.mod_eq_of_lt h]

theorem length_length_le {n : Nat} (h : n < 2 ^ 64) : (beBytes n).length ≤ 8 :=
  length_beBytes_le (lt_of_lt_of_eq h (by norm_num))

/-- The first byte of a header: the four ranges (short/long × string/list) are disjoint. -/
theorem header_cons (off n : Nat) (hoff : off = 128 ∨ off = 192) (hn : n < 2 ^ 64) :
    ∃ x rest, header off n = x :: rest ∧
      ((n < 56 ∧ x.toNat = off + n ∧ rest = []) ∨
       (56 ≤ n ∧ x.toNat = off + 55 + (beBytes n).length ∧ rest = beBytes n ∧
        1 ≤ (beBytes n).length ∧ (beBytes n).length ≤ 8)) := by
  by_cases h : n < 56
  · refine ⟨_, [], by rw [header, if_pos h], .inl ⟨h, toNat_ofNat_lt ?_, rfl⟩⟩
    omega
  · have hle := length_length_le hn
    have hpos : 1 ≤ (beBytes n).length := by
      have := List.length_pos_iff.mpr (beBytes_ne_nil (n := n) (by omega))
      omega
    refine ⟨_, _, by rw [header, if_neg h], .inr ⟨by omega, toNat_ofNat_lt ?_, rfl, hpos, hle⟩⟩
    omega

/-- Headers are prefix-injective in the kind and in the length. -/
theorem header_append_inj {off off' n m : Nat} {x y : List UInt8}
    (hoff : off = 128 ∨ off = 192) (hoff' : off' = 128 ∨ off' = 192)
    (hn : n < 2 ^ 64) (hm : m < 2 ^ 64) (h : header off n ++ x = header off' m ++ y) :
    off = off' ∧ n = m ∧ x = y := by
  obtain ⟨a, r, ha, hcase⟩ := header_cons off n hoff hn
  obtain ⟨b, t, hb, hcase'⟩ := header_cons off' m hoff' hm
  rw [ha, hb, List.cons_append, List.cons_append, List.cons.injEq] at h
  obtain ⟨rfl, htail⟩ := h
  rcases hcase with ⟨hs, hx, rfl⟩ | ⟨hl, hx, rfl, h1, h8⟩ <;>
    rcases hcase' with ⟨hs', hx', rfl⟩ | ⟨hl', hx', rfl, h1', h8'⟩
  · exact ⟨by omega, by omega, by simpa using htail⟩
  · omega
  · omega
  · have hlen : (beBytes n).length = (beBytes m).length := by omega
    obtain ⟨hbytes, hxy⟩ := List.append_inj htail hlen
    exact ⟨by omega, beBytes_inj hbytes, hxy⟩

/-- A string encodes as itself (one byte below `0x80`) or as a header and its payload. -/
theorem encodeStr_cases (b : List UInt8) :
    (∃ x, b = [x] ∧ x.toNat < 128 ∧ encodeStr b = [x]) ∨
      encodeStr b = header 128 b.length ++ b := by
  match b with
  | [] => exact .inr rfl
  | [x] =>
    by_cases h : x < 0x80
    · exact .inl ⟨x, rfl, h, by rw [encodeStr, if_pos h]⟩
    · exact .inr (by rw [encodeStr, if_neg h]; rfl)
  | _ :: _ :: _ => exact .inr rfl

theorem length_le_encodeStr (b : List UInt8) : b.length ≤ (encodeStr b).length := by
  rcases encodeStr_cases b with ⟨x, rfl, -, h⟩ | h
  · rw [h]
  · rw [h, List.length_append]
    omega

theorem ne_header_append {a : UInt8} {off n : Nat} {x y : List UInt8} (ha : a.toNat < 128)
    (hoff : off = 128 ∨ off = 192) (hn : n < 2 ^ 64) : a :: x ≠ header off n ++ y := by
  obtain ⟨b, t, hb, hcase⟩ := header_cons off n hoff hn
  rw [hb, List.cons_append]
  intro h
  obtain ⟨rfl, -⟩ := List.cons.inj h
  omega

theorem encodeStr_append_inj {b d r s : List UInt8} (hb : (encodeStr b).length < 2 ^ 64)
    (hd : (encodeStr d).length < 2 ^ 64) (h : encodeStr b ++ r = encodeStr d ++ s) :
    b = d ∧ r = s := by
  have hb' := lt_of_le_of_lt (length_le_encodeStr b) hb
  have hd' := lt_of_le_of_lt (length_le_encodeStr d) hd
  rcases encodeStr_cases b with ⟨x, rfl, hx, he⟩ | he <;>
    rcases encodeStr_cases d with ⟨y, rfl, hy, he'⟩ | he' <;> rw [he, he'] at h
  · simpa using h
  · rw [List.append_assoc] at h
    exact absurd h (ne_header_append hx (.inl rfl) hd')
  · rw [List.append_assoc] at h
    exact absurd h.symm (ne_header_append hy (.inl rfl) hb')
  · rw [List.append_assoc, List.append_assoc] at h
    obtain ⟨-, hlen, hrest⟩ := header_append_inj (.inl rfl) (.inl rfl) hb' hd' h
    exact List.append_inj hrest hlen

/-- A string encoding and a list encoding never share a prefix. -/
theorem encodeStr_ne_list {b r s : List UInt8} {n : Nat} (hb : (encodeStr b).length < 2 ^ 64)
    (hn : n < 2 ^ 64) : encodeStr b ++ r ≠ header 192 n ++ s := by
  have hb' := lt_of_le_of_lt (length_le_encodeStr b) hb
  rcases encodeStr_cases b with ⟨x, rfl, hx, he⟩ | he <;> rw [he]
  · exact ne_header_append hx (.inr rfl) hn
  · intro h
    rw [List.append_assoc] at h
    obtain ⟨hoff, -, -⟩ := header_append_inj (.inl rfl) (.inr rfl) hb' hn h
    omega

theorem header_ne_nil (off n : Nat) : header off n ≠ [] := by
  rw [header]
  split <;> simp

theorem encode_ne_nil (a : Item) : encode a ≠ [] := by
  cases a with
  | str b =>
    rcases encodeStr_cases b with ⟨x, -, -, h⟩ | h <;> rw [encode, h]
    · simp
    · simp [header_ne_nil]
  | list l =>
    rw [encode]
    simp [header_ne_nil]

theorem encodeAll_ne_nil (a : Item) (l : List Item) : encodeAll (a :: l) ≠ [] := by
  rw [encodeAll]
  simp [encode_ne_nil]

mutual
/-- **Prefix-injectivity.** Encodings that agree up to arbitrary suffixes encode the same item. -/
theorem encode_append_inj : ∀ (a b : Item) (r s : List UInt8), (encode a).length < 2 ^ 64 →
    (encode b).length < 2 ^ 64 → encode a ++ r = encode b ++ s → a = b ∧ r = s
  | .str a, .str b, r, s, ha, hb, h => by
    obtain ⟨rfl, hrs⟩ := encodeStr_append_inj ha hb h
    exact ⟨rfl, hrs⟩
  | .str a, .list l, r, s, ha, hb, h => by
    rw [encode, List.length_append] at hb
    rw [encode, encode, List.append_assoc] at h
    exact absurd h (encodeStr_ne_list ha (by omega))
  | .list l, .str b, r, s, ha, hb, h => by
    rw [encode, List.length_append] at ha
    rw [encode, encode, List.append_assoc] at h
    exact absurd h.symm (encodeStr_ne_list hb (by omega))
  | .list l, .list m, r, s, ha, hb, h => by
    rw [encode, List.length_append] at ha hb
    rw [encode, encode, List.append_assoc, List.append_assoc] at h
    obtain ⟨-, hlen, hrest⟩ :=
      header_append_inj (.inr rfl) (.inr rfl) (by omega) (by omega) h
    obtain ⟨hbody, hrs⟩ := List.append_inj hrest hlen
    exact ⟨congrArg Item.list (encodeAll_inj l m (by omega) (by omega) hbody), hrs⟩

theorem encodeAll_inj : ∀ l m : List Item, (encodeAll l).length < 2 ^ 64 →
    (encodeAll m).length < 2 ^ 64 → encodeAll l = encodeAll m → l = m
  | [], [], _, _, _ => rfl
  | [], b :: m, _, _, h => absurd h.symm (encodeAll_ne_nil b m)
  | a :: l, [], _, _, h => absurd h (encodeAll_ne_nil a l)
  | a :: l, b :: m, hl, hm, h => by
    rw [encodeAll, List.length_append] at hl hm
    rw [encodeAll, encodeAll] at h
    obtain ⟨rfl, hrest⟩ := encode_append_inj a b _ _ (by omega) (by omega) h
    rw [encodeAll_inj l m (by omega) (by omega) hrest]
end

/-- **`encode_inj`** — equal encodings, equal items. -/
theorem encode_inj {a b : Item} (ha : (encode a).length < 2 ^ 64)
    (h : encode a = encode b) : a = b := by
  refine (encode_append_inj a b [] [] ha (h ▸ ha) ?_).1
  rw [h]

/-! ## §4 — sizes of parts -/

theorem encodeAll_append (l m : List Item) : encodeAll (l ++ m) = encodeAll l ++ encodeAll m := by
  induction l with
  | nil => rfl
  | cons a l ih => rw [List.cons_append, encodeAll, encodeAll, ih, List.append_assoc]

theorem length_encodeAll_le (l : List Item) : (encodeAll l).length ≤ (encode (.list l)).length := by
  rw [encode, List.length_append]
  omega

theorem length_encode_le_of_mem {a : Item} {l : List Item} (h : a ∈ l) :
    (encode a).length ≤ (encode (.list l)).length := by
  obtain ⟨front, back, rfl⟩ := List.append_of_mem h
  refine le_trans ?_ (length_encodeAll_le _)
  rw [encodeAll_append, encodeAll]
  simp only [List.length_append]
  omega

theorem length_encode_list_le {l : List Item} (h : (encodeAll l).length < 2 ^ 64) :
    (encode (.list l)).length ≤ (encodeAll l).length + 9 := by
  have hlen := length_length_le h
  rw [encode, List.length_append, header]
  split
  · simp
    omega
  · simp only [List.length_cons]
    omega

mutual
/-- **`bound`** — an upper bound on the encoded size that needs no contents, only lengths. -/
def bound : Item → Nat
  | .str b => b.length + 9
  | .list l => boundAll l + 9

def boundAll : List Item → Nat
  | [] => 0
  | i :: rest => bound i + boundAll rest
end

theorem length_encodeStr_le {b : List UInt8} (h : b.length < 2 ^ 64) :
    (encodeStr b).length ≤ b.length + 9 := by
  have hlen := length_length_le h
  rcases encodeStr_cases b with ⟨x, -, -, hx⟩ | hx <;> rw [hx]
  · simp
  · rw [List.length_append, header]
    split
    · simp
      omega
    · simp only [List.length_cons]
      omega

mutual
theorem length_encode_le_bound : ∀ a : Item, bound a < 2 ^ 64 → (encode a).length ≤ bound a
  | .str b, h => by
    rw [bound] at h ⊢
    rw [encode]
    exact length_encodeStr_le (by omega)
  | .list l, h => by
    rw [bound] at h ⊢
    have hall := length_encodeAll_le_bound l (by omega)
    exact le_trans (length_encode_list_le (by omega)) (by omega)

theorem length_encodeAll_le_bound : ∀ l : List Item, boundAll l < 2 ^ 64 →
    (encodeAll l).length ≤ boundAll l
  | [], _ => by simp [encodeAll]
  | a :: l, h => by
    rw [boundAll] at h ⊢
    have hhead := length_encode_le_bound a (by omega)
    have htail := length_encodeAll_le_bound l (by omega)
    rw [encodeAll, List.length_append]
    omega
end

/-! ## §5 — exact sizes -/

/-- **`listSize`** — the encoded size of a list whose items take `n` bytes together. -/
def listSize (n : Nat) : Nat := (header 192 n).length + n

theorem length_encodeAll (l : List Item) : (encodeAll l).length = (l.map fun a => (encode a).length).sum := by
  induction l with
  | nil => rfl
  | cons a l ih => rw [encodeAll, List.length_append, ih, List.map_cons, List.sum_cons]

theorem length_encode_list (l : List Item) :
    (encode (.list l)).length = listSize (l.map fun a => (encode a).length).sum := by
  rw [encode, List.length_append, length_encodeAll, listSize]

theorem beVal_lt (b : List UInt8) : beVal b < 256 ^ b.length := by
  induction b with
  | nil => exact Nat.one_pos
  | cons x b ih =>
    have hx := x.toNat_lt
    rw [beVal_cons, List.length_cons, pow_succ]
    nlinarith

theorem length_beBytes_mono {n m : Nat} (h : n ≤ m) : (beBytes n).length ≤ (beBytes m).length := by
  have hm := beVal_lt (beBytes m)
  rw [beVal_beBytes] at hm
  exact length_beBytes_le (lt_of_le_of_lt h hm)

theorem listSize_mono {n m : Nat} (h : n ≤ m) : listSize n ≤ listSize m := by
  have hbytes := length_beBytes_mono h
  unfold listSize header
  split <;> split <;> simp only [List.length_cons, List.length_nil] <;> omega

/-- Past one byte the size of a string is a matter of its length. -/
theorem length_encode_str {b : List UInt8} (h : 1 < b.length) :
    (encode (.str b)).length = (header 128 b.length).length + b.length := by
  match b, h with
  | x :: y :: b, _ => rw [encode, encodeStr, List.length_append]; exact nofun

end Lib.Rlp
