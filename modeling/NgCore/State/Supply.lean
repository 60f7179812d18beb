/-
# NgCore.State.Supply — where money comes from and where it goes

The sum of all balances changes in two places only: a mint adds its value, a fee takes its amount out. Everything else
MOVES value — payments, what contracts send each other, bonds into the escrow and out of it, refunds of destroyed
contracts — whoever sender, recipient, contract and escrow are. A program is followed by what it ADDS to the sum
(`StateTxn.Adds`), handler by handler.

What a block mints is matched to its uncles by a key that glues recipient and amount together; that is unambiguous for
recipients of 32 bytes, and only for those.

DELIVERABLE: `Reached.upgrade_supply` — the sum after a block, and no amount written is negative;
`supply_misread_uncle`, a block that mints more because an uncle's coinbase is too long.
-/
import NgCore.State.Flush
import NgCore.State.Trail
import NgCore.State.Reached

namespace NgCore

open Lib (Bucket Txn)

/-! ## §1 — the sum of all balances -/

namespace State

/-- **`supply`** — the sum of all balances. -/
def supply (s : State) : Nat := Bucket.total (fun _ x => x) s.bal.cur

/-- **`Shifts d s s'`** — the sum moved by `d`, and no negative amount was written on the way. -/
structure Shifts (d : Int) (s s' : State) : Prop where
  supply : (s'.supply : Int) = s.supply + d
  amounts : ∀ (a : Address) (v : Int), .amount a v ∈ s'.log → .amount a v ∈ s.log ∨ 0 ≤ v

theorem Shifts.refl (s : State) : Shifts 0 s s := ⟨(add_zero _).symm, fun _ _ h => .inl h⟩

theorem Shifts.trans {d e : Int} {s t u : State} (h : Shifts d s t) (h' : Shifts e t u) : Shifts (d + e) s u where
  supply := by rw [h'.supply, h.supply, add_assoc]
  amounts a v hv := (h'.amounts a v hv).elim (h.amounts a v) .inr

variable [Crypto]

theorem cur_setBalance (rec : Recorder) (a : Address) (v : Int) (s : State) :
    (s.setBalance rec a v).bal.cur = s.bal.cur.insert a v.natAbs := by
  refine Bucket.ext_get fun b => ?_
  show (s.bal.write true rec a (some v.natAbs)).cur[b]? = _
  rw [Lib.Versioned.cur_write, Bucket.get_insert]

/-- **One balance write** moves the sum by what the balance moves. -/
theorem shifts_setBalance (rec : Recorder) (a : Address) {v : Int} (hv : 0 ≤ v) (s : State) :
    Shifts (v - s.getBalance a) s (s.setBalance rec a v) where
  supply := by
    have hold : Bucket.weight (fun _ x => x) s.bal.cur a = s.getBalance a := by
      unfold Bucket.weight getBalance
      cases s.bal.cur[a]? <;> rfl
    have htotal := Bucket.total_insert_add (fun (_ : Address) (x : Nat) => x) s.bal.cur a v.natAbs
    rw [hold, ← cur_setBalance rec a v s] at htotal
    unfold supply
    omega
  amounts b w hw := by
    rcases List.mem_cons.mp hw with h | hw
    · cases h
    · rcases List.mem_cons.mp hw with h | hw
      · obtain ⟨-, rfl⟩ := Note.amount.inj h
        exact .inr hv
      · exact .inl hw

/-- **Pending balances**, each of another address, add their surplus. -/
theorem shifts_putBalances (rec : Recorder) {l : List (Address × Int)} (hl : (l.map Prod.fst).Nodup)
    (hpos : ∀ e ∈ l, 0 ≤ e.2) (s : State) :
    Shifts (l.map fun e => e.2 - (s.getBalance e.1 : Int)).sum s (s.putBalances rec l) := by
  induction l generalizing s with
  | nil => exact Shifts.refl s
  | cons e l ih =>
    obtain ⟨hnotin, hl⟩ := List.nodup_cons.mp hl
    have hhead := shifts_setBalance rec e.1 (hpos e List.mem_cons_self) s
    have htail := ih hl (fun e he => hpos e (List.mem_cons_of_mem _ he)) (s.setBalance rec e.1 e.2)
    -- the other balances are still those of `s`
    have hsame : (l.map fun f => f.2 - ((s.setBalance rec e.1 e.2).getBalance f.1 : Int)) =
        l.map fun f => f.2 - (s.getBalance f.1 : Int) := by
      refine List.map_congr_left fun f hf => ?_
      rw [getBalance_setBalance, if_neg fun heq : e.1 = f.1 => hnotin (heq ▸ List.mem_map_of_mem hf)]
    rw [hsame] at htail
    exact hhead.trans htail

end State

/-! ## §2 — what a program adds -/

/-- The write sets no balance. -/
def Write.KeepsBalances : Write → Prop
  | .setBalance _ _ _ => False
  | _ => True

theorem Write.bal_step [Crypto] {w : Write} (hw : w.KeepsBalances) (s : State) : (w.step s).bal = s.bal := by
  cases w with
  | setBalance rec a v => exact hw.elim
  | setContract rec account => exact State.bal_setContract account s
  | delContract rec a =>
    obtain ⟨code, hcode⟩ := State.releaseSlot_eq rec a s
    show (s.delContract rec a).bal = s.bal
    unfold State.delContract
    simp only [hcode]
    rfl
  | registerPubKey rec a scheme pubKey =>
    show (s.registerPubKey rec a (scheme :: pubKey)).bal = s.bal
    unfold State.registerPubKey
    split <;> rfl
  | pruneCommits tip =>
    show (s.pruneCommits tip).bal = s.bal
    unfold State.pruneCommits
    split
    · rfl
    · exact congrArg Stores.bal (State.stores_dropCommits _ s)
  | setBeacon rec seed => rfl
  | putCommit height hash fromAddr => rfl
  | consumeCommit height hash => rfl
  | journalConsumed revealHeight recordHeight hash fromAddr => rfl
  | notes l => rfl
  | apply block => rfl

theorem Write.shifts_step [Crypto] {w : Write} (hw : w.KeepsBalances) (s : State) : State.Shifts 0 s (w.step s) where
  supply := by
    unfold State.supply
    rw [w.bal_step hw, add_zero]
  amounts a v hv := by
    rcases w.trail_step s rfl hv with hold | ⟨l, -, hmem⟩ | ⟨rec, b, x, rfl, -⟩
    · exact .inl hold
    · obtain ⟨n, -, hn⟩ := List.mem_map.mp hmem
      cases hn
    · exact hw.elim

namespace StateTxn

variable [Crypto] {α β : Type} {d e : Int}

/-- **`Adds d p`** — where `p` succeeds, the sum of all balances moves by `d`. -/
def Adds (d : Int) (p : StateTxn α) : Prop :=
  ∀ (s : State) (a : α) (s' : State), p.exec s = .ok (a, s') → s.Shifts d s'

theorem adds_of_writes {p : StateTxn α} (h : p.Writes (fun _ => True) Write.KeepsBalances) : Adds 0 p := by
  intro s a s' hrun
  refine Txn.run_preserves (I := State.Shifts 0 s) (fun _ _ => trivial) ?_ h hrun (State.Shifts.refl s)
  intro w t hw ht
  exact ht.trans (Write.shifts_step hw t)

theorem adds_pure (a : α) : Adds 0 (pure a : StateTxn α) := adds_of_writes trivial

theorem adds_fail (err : Err) : Adds d (.fail err : StateTxn α) := fun _ _ _ h => by cases h

theorem adds_bind {x : StateTxn α} {f : α → StateTxn β} (hx : Adds d x) (hf : ∀ a, Adds e (f a)) :
    Adds (d + e) (x >>= f) := by
  intro s b s' hrun
  obtain ⟨a, t, hxa, hfb⟩ := exec_bind_ok.mp hrun
  exact (hx s a t hxa).trans (hf a t b s' hfb)

theorem adds_then {x : StateTxn α} {f : α → StateTxn β} (hx : Adds 0 x) (hf : ∀ a, Adds d (f a)) :
    Adds d (x >>= f) := by
  rw [← zero_add d]
  exact adds_bind hx hf

theorem adds_look {f : View → StateTxn β} (hf : ∀ v, Adds d (f v)) : Adds d (Txn.look >>= f) :=
  fun s b s' hrun => hf s.view s b s' hrun

theorem adds_ofExcept {x : Except Err α} {f : α → StateTxn β} (hf : ∀ a, x = .ok a → Adds d (f a)) :
    Adds d (Txn.ofExcept x >>= f) := by
  cases x with
  | error err => exact adds_fail err
  | ok a => exact hf a rfl

theorem adds_require {c : Prop} [Decidable c] {err : Err} {f : Unit → StateTxn β} (hf : c → Adds d (f ())) :
    Adds d (require c err >>= f) := by
  unfold require
  split
  · next hc => exact hf hc
  · exact adds_fail err

theorem adds_when {c : Prop} [Decidable c] {p : StateTxn Unit} (hp : Adds 0 p) : Adds 0 (when c p) := by
  unfold when
  split
  · exact hp
  · exact adds_pure ()

end StateTxn

open StateTxn (Adds adds_of_writes adds_pure adds_fail adds_bind adds_then adds_look adds_ofExcept adds_require
  adds_when)

/-! ## §3 — the handlers -/

section Handlers

variable [Engine] {cfg : Config} {rec : Recorder}

theorem adds_credit (a : Address) (value : Nat) : Adds value (credit rec a value) := by
  intro s _ s' hrun
  obtain ⟨-, rfl⟩ := Prod.mk.inj (Except.ok.inj hrun)
  have h := State.shifts_setBalance rec a (v := (s.getBalance a + value : Int)) (by omega) s
  rw [show (s.getBalance a + value : Int) - s.getBalance a = value by omega] at h
  exact h

theorem adds_verifySigned (tx : FullTx) : Adds 0 (verifySigned rec tx) :=
  adds_of_writes (writes_verifySigned tx fun _ _ => trivial)

theorem adds_chargeFrom (tx : FullTx) (expense : Nat) : Adds (-expense) (chargeFrom rec tx expense) := by
  refine adds_then (adds_verifySigned tx) fun _ => adds_ofExcept fun a _ => ?_
  intro s b s' hrun
  obtain ⟨v, t, hlook, hrun⟩ := StateTxn.exec_bind_ok.mp hrun
  obtain ⟨rfl, rfl⟩ := Prod.mk.inj (Except.ok.inj hlook)
  obtain ⟨_, t, hreq, hrun⟩ := StateTxn.exec_bind_ok.mp hrun
  obtain ⟨hle, rfl⟩ := StateTxn.exec_require_ok.mp hreq
  obtain ⟨-, rfl⟩ := Prod.mk.inj (Except.ok.inj hrun)
  replace hle : expense ≤ t.getBalance a := hle
  have h := State.shifts_setBalance rec a (v := (t.getBalance a - expense : Int)) (by omega) t
  rw [show (t.getBalance a - expense : Int) - t.getBalance a = -expense by omega] at h
  exact h

theorem adds_handleGenerate (tx : FullTx) : Adds tx.value (handleGenerate rec tx) :=
  adds_then (adds_when (adds_verifySigned tx)) fun _ => adds_credit tx.toAddr tx.value

/-- **A contract run adds nothing**: its journal moves value between balances. -/
theorem adds_runContract (addr : Address) (tx : FullTx) (entry : String) (blockTime gas : Nat) :
    Adds 0 (runContract rec addr tx entry blockTime gas) := by
  intro s r s' hrun
  obtain ⟨ok, gas'⟩ := r
  have hnoted : ∀ l, s.Shifts 0 (s.noted l) := fun l => Write.shifts_step (w := .notes l) trivial s
  rcases exec_runContract hrun with ⟨-, l, rfl⟩ | ⟨-, account, m, vm, l, hcompletes, rfl⟩
  · exact hnoted l
  · have hbalanced := (journalled_balanced s.view).runEntry (balanced_newVMJournal s.view account) tx blockTime m
      entry gas
    rw [hcompletes.runs] at hbalanced
    have hpos : ∀ e ∈ vm.journal.balances.toList, 0 ≤ e.2 := by
      intro e he
      have h := hbalanced.nonneg e.1
      rwa [Journal.balanceOf, (Bucket.mem_toList_iff _ _ _).mp he] at h
    have hput := State.shifts_putBalances rec (Bucket.nodup_keys vm.journal.balances) hpos (s.noted l)
    have hsurplus : (vm.journal.balances.toList.map fun e => e.2 - ((s.noted l).getBalance e.1 : Int)).sum = 0 :=
      hbalanced.surplus
    rw [hsurplus] at hput
    have haccounts : ∀ (l : List (Address × Contract)) (t : State), t.Shifts 0 (t.putAccounts rec l) := by
      intro l
      induction l with
      | nil => exact State.Shifts.refl
      | cons e l ih => exact fun t => (Write.shifts_step (w := .setContract rec e.2) trivial t).trans (ih _)
    exact ((hnoted l).trans hput).trans (haccounts _ _)

theorem adds_runValidate (tx : FullTx) (blockTime gas : Nat) : Adds 0 (runValidate rec tx blockTime gas) := by
  refine adds_ofExcept fun a _ => adds_look fun v => ?_
  split
  · exact adds_pure gas
  · split
    · exact adds_pure gas
    · refine adds_then (adds_runContract _ _ _ _ _) fun r => ?_
      exact adds_require fun _ => adds_pure r.2

theorem adds_handleTransaction (tx : FullTx) (blockTime gas : Nat) :
    Adds (-tx.fee) (handleTransaction rec tx blockTime gas) := by
  rw [show (-(tx.fee : Int)) = -(tx.totalExpenditure : Int) + (tx.value + 0) by
    unfold FullTx.totalExpenditure; omega]
  refine adds_bind (adds_chargeFrom tx _) fun _ => adds_bind (adds_credit _ _) fun _ => adds_look fun v => ?_
  -- what the recipient's code then does moves value and adds none
  split
  · exact adds_pure gas
  · exact adds_then (adds_runContract _ _ _ _ _) fun r => adds_pure r.2

theorem adds_releaseContractDeps (slot : Contract) : Adds 0 (releaseContractDeps rec slot) :=
  adds_of_writes (writes_releaseContractDeps slot fun _ _ _ _ _ _ => trivial)

/-- **The refund of a destroyed contract adds nothing**, also when the escrow is the one refunded. -/
theorem adds_refundContractDeposit (addr : Address) (ctx : ContractContext) :
    Adds 0 (refundContractDeposit rec addr ctx) := by
  unfold refundContractDeposit
  dsimp only
  split
  · exact adds_pure ()
  · intro s _ s' hrun
    obtain ⟨v, t, hlook, hrun⟩ := StateTxn.exec_bind_ok.mp hrun
    obtain ⟨rfl, rfl⟩ := Prod.mk.inj (Except.ok.inj hlook)
    obtain ⟨_, t, hnote, hrun⟩ := StateTxn.exec_bind_ok.mp hrun
    have hquiet : s.Shifts 0 t := adds_when (adds_of_writes (p := Txn.tell (.notes [.underflow])) ⟨trivial, trivial⟩)
      s _ t hnote
    have hbal : t.getBalance storageDepositEscrow = s.getBalance storageDepositEscrow := by
      unfold StateTxn.when at hnote
      split at hnote <;> · obtain ⟨-, rfl⟩ := Prod.mk.inj (Except.ok.inj hnote); rfl
    split at hrun
    · obtain ⟨-, rfl⟩ := Prod.mk.inj (Except.ok.inj hrun)
      exact hquiet
    · obtain ⟨_, u, hdebit, hrun⟩ := StateTxn.exec_bind_ok.mp hrun
      obtain ⟨-, rfl⟩ := Prod.mk.inj (Except.ok.inj hdebit)
      -- the debit, then what is credited on top of the balance AFTER it
      have hcredit := adds_credit addr (min (lockedDeposit ctx) (s.getBalance storageDepositEscrow)) _ _ s' hrun
      have hdebited := State.shifts_setBalance rec storageDepositEscrow
        (v := (s.getBalance storageDepositEscrow -
          min (lockedDeposit ctx) (s.getBalance storageDepositEscrow) : Int)) (by omega) t
      have h := (hquiet.trans hdebited).trans hcredit
      rw [hbal] at h
      rw [show (0 : Int) + _ + _ = 0 by push_cast; ring] at h
      exact h

theorem adds_destroyContract (tx : FullTx) (fromAddr : Address) (slot : Contract) (blockTime gas : Nat) :
    Adds 0 (destroyContract cfg rec tx fromAddr slot blockTime gas) := by
  refine adds_require fun _ => adds_then (adds_runContract _ _ _ _ _) ?_
  rintro ⟨ok, gas⟩
  dsimp only
  split
  · exact adds_pure gas
  · refine adds_then (adds_releaseContractDeps slot) fun _ => ?_
    refine adds_then (adds_when (adds_refundContractDeposit fromAddr slot.context)) fun _ => ?_
    exact adds_of_writes ⟨trivial, trivial⟩

theorem adds_installContract (tx : FullTx) (fromAddr : Address) (slot : Contract) (newSource : Bytes)
    (newDeps : List Address) (blockTime gas : Nat) :
    Adds 0 (installContract rec tx fromAddr slot newSource newDeps blockTime gas) := by
  refine adds_then (adds_of_writes (writes_pinDeps newDeps fun _ _ _ _ _ _ => trivial)) fun _ => ?_
  refine adds_then (adds_of_writes ⟨trivial, trivial⟩) fun _ => ?_
  exact adds_then (adds_runContract _ _ _ _ _) fun r => adds_pure r.2

theorem adds_handleDeploy (tx : FullTx) (blockTime gas : Nat) :
    Adds (-tx.fee) (handleDeploy cfg rec tx blockTime gas) := by
  refine adds_look fun v => adds_ofExcept fun _ hcheck => ?_
  obtain ⟨_, -, hcheck⟩ := bind_eq_ok.mp hcheck
  obtain ⟨_, hvalue, -⟩ := bind_eq_ok.mp hcheck
  rw [ensure_eq_ok] at hvalue
  rw [show (-(tx.fee : Int)) = -(tx.totalExpenditure : Int) + 0 by unfold FullTx.totalExpenditure; omega]
  refine adds_bind (adds_chargeFrom tx _) fun fromAddr => adds_ofExcept fun newSource _ => ?_
  refine adds_require fun _ => adds_look fun v => ?_
  dsimp only
  split
  · split
    · exact adds_fail _
    · exact adds_destroyContract tx fromAddr _ blockTime gas
  · refine adds_require fun _ => adds_ofExcept fun newDeps _ => ?_
    split
    · exact adds_installContract tx fromAddr _ newSource newDeps blockTime gas
    · refine adds_then (adds_runContract _ _ _ _ _) fun r => ?_
      split
      · exact adds_pure r.2
      · refine adds_then (adds_releaseContractDeps _) fun _ => ?_
        exact adds_installContract tx fromAddr _ newSource newDeps blockTime r.2

/-! ## §4 — a block -/

/-- What a transaction adds: a mint its value, any other takes its fee out. -/
def FullTx.addition (tx : FullTx) : Int := if tx.type = generateTx then tx.value else -tx.fee

theorem adds_handleTx (blockTime gas : Nat) (tx : FullTx) : Adds tx.addition (handleTx cfg rec blockTime gas tx) := by
  unfold handleTx FullTx.addition
  have hreveal : Adds 0 (consumeReveal tx) :=
    adds_of_writes (writes_consumeReveal tx (fun _ _ _ _ => trivial) fun _ _ => trivial)
  split
  · rw [← add_zero (tx.value : Int)]
    exact adds_bind (adds_handleGenerate tx) fun _ => adds_pure gas
  · split
    · refine adds_then hreveal fun _ => adds_then (adds_runValidate tx blockTime gas) fun gas => ?_
      exact adds_handleTransaction tx blockTime gas
    · split
      · refine adds_then hreveal fun _ => adds_then (adds_runValidate tx blockTime gas) fun gas => ?_
        exact adds_handleDeploy tx blockTime gas
      · exact adds_fail _

theorem adds_handleTxs (blockTime : Nat) (txs : List FullTx) :
    Adds (txs.map FullTx.addition).sum (handleTxs cfg rec blockTime txs) := by
  unfold handleTxs
  generalize maxBlockGas = gas
  induction txs generalizing gas with
  | nil => exact adds_pure gas
  | cons tx txs ih =>
    rw [List.foldlM_cons, List.map_cons, List.sum_cons]
    exact adds_bind (adds_handleTx blockTime gas tx) ih

theorem adds_handleCommit (c : Commitment) : Adds (-c.fee) (handleCommit rec c) := by
  intro s _ s' hrun
  obtain ⟨v, t, hlook, hrun⟩ := StateTxn.exec_bind_ok.mp hrun
  obtain ⟨rfl, rfl⟩ := Prod.mk.inj (Except.ok.inj hlook)
  obtain ⟨_, t, hverify, hrun⟩ := StateTxn.exec_bind_ok.mp hrun
  obtain ⟨-, rfl⟩ := StateTxn.exec_ofExcept_ok.mp hverify
  obtain ⟨a, t, hfrom, hrun⟩ := StateTxn.exec_bind_ok.mp hrun
  obtain ⟨-, rfl⟩ := StateTxn.exec_ofExcept_ok.mp hfrom
  obtain ⟨_, t, hpending, hrun⟩ := StateTxn.exec_bind_ok.mp hrun
  obtain ⟨-, rfl⟩ := StateTxn.exec_require_ok.mp hpending
  obtain ⟨_, t, hle, hrun⟩ := StateTxn.exec_bind_ok.mp hrun
  obtain ⟨hle, rfl⟩ := StateTxn.exec_require_ok.mp hle
  obtain ⟨-, rfl⟩ := Prod.mk.inj (Except.ok.inj hrun)
  replace hle : c.fee ≤ t.getBalance a := hle
  have h := State.shifts_setBalance rec a (v := (t.getBalance a - c.fee : Int)) (by omega) t
  have hput := Write.shifts_step (w := .putCommit c.height (copy32 c.hash) a) trivial
    (t.setBalance rec a (t.getBalance a - c.fee : Int))
  have hboth := h.trans hput
  rw [show (t.getBalance a - c.fee : Int) - t.getBalance a + 0 = -c.fee by omega] at hboth
  exact hboth

theorem adds_handleCommits (block : FullBlock) :
    Adds (block.commits.map fun c => -(c.fee : Int)).sum (handleCommits rec block) := by
  unfold handleCommits
  induction block.commits with
  | nil => exact adds_pure ()
  | cons c l ih =>
    rw [List.map_cons, List.sum_cons]
    exact adds_bind (adds_handleCommit c) fun _ => ih

/-- **A block adds what its transactions add, less the fees of its commitments.** -/
theorem adds_upgrade (block : FullBlock) :
    Adds ((block.commits.map fun c => -(c.fee : Int)).sum + (block.txs.map FullTx.addition).sum)
      (upgrade cfg block) := by
  refine adds_bind (adds_handleCommits block) fun _ => ?_
  rw [← add_zero (block.txs.map FullTx.addition).sum]
  refine adds_bind (adds_handleTxs _ _) fun _ => ?_
  refine adds_then (adds_of_writes (writes_updateBeacon block fun _ => trivial)) fun _ => ?_
  exact adds_of_writes ⟨trivial, trivial, trivial⟩

end Handlers

/-! ## §5 — what a block mints -/

/-- Read a decimal back. -/
def readDecimal (b : Bytes) : Nat := Nat.ofDigitChars 10 (b.map fun x => Char.ofNat x.toNat) 0

theorem readDecimal_decimal (n : Nat) : readDecimal (decimal n) = n := by
  have hchars : (decimal n).map (fun x => Char.ofNat x.toNat) = Nat.toDigits 10 n := by
    rw [decimal, List.map_map]
    refine (List.map_congr_left fun c hc => ?_).trans (List.map_id _)
    -- a digit is a byte
    have hdigit := Nat.isDigit_of_mem_toDigits (b := 10) (by decide) (by decide) hc
    have hbyte : c.toNat < 256 := (Char.isDigit_iff_toNat.mp hdigit).2.trans_lt (by decide)
    show Char.ofNat (UInt8.ofNat c.toNat).toNat = c
    rw [UInt8.toNat_ofNat_of_lt' hbyte, Char.ofNat_toNat]
  rw [readDecimal, hchars, Nat.ofDigitChars_ten_toDigits]

/-- The amount in the key of a mint, which starts with 32 bytes of recipient. -/
def keyAmount (key : Bytes) : Nat := readDecimal (key.drop addressSize)

theorem keyAmount_append {b : Bytes} (h : b.length = addressSize) (n : Nat) : keyAmount (b ++ decimal n) = n := by
  rw [keyAmount, ← h, List.drop_left, readDecimal_decimal]

/-- The key of an unsigned mint. -/
def FullTx.mintKey (g : FullTx) : Bytes := g.toAddr.val ++ decimal g.value

/-- What the mints of a list of transactions come to. -/
def mintedBy (txs : List FullTx) : Nat := ((txs.filter (·.type = generateTx)).map FullTx.value).sum

theorem mintedBy_cons (tx : FullTx) (txs : List FullTx) :
    mintedBy (tx :: txs) = (if tx.type = generateTx then tx.value else 0) + mintedBy txs := by
  unfold mintedBy
  by_cases htype : tx.type = generateTx
  · rw [if_pos htype, List.filter_cons_of_pos (by simpa using htype), List.map_cons, List.sum_cons]
  · rw [if_neg htype, List.filter_cons_of_neg (by simpa using htype), Nat.zero_add]

theorem splitGenerates_sum {primary primary' : Option FullTx} {gens gens' txs : List FullTx}
    (h : splitGenerates primary gens txs = .ok (primary', gens')) :
    primary'.elim 0 FullTx.value + (gens'.map FullTx.value).sum =
      primary.elim 0 FullTx.value + (gens.map FullTx.value).sum + mintedBy txs := by
  induction txs generalizing primary gens with
  | nil =>
    obtain ⟨rfl, rfl⟩ := Prod.mk.inj (Except.ok.inj h)
    rfl
  | cons tx txs ih =>
    rw [splitGenerates] at h
    rw [mintedBy_cons]
    split at h
    · next htype =>
      rw [if_neg htype, ih h, Nat.zero_add]
    · next htype =>
      rw [if_pos (not_not.mp htype)]
      split at h
      · obtain ⟨_, hnone, h⟩ := bind_eq_ok.mp h
        rw [ensure_eq_ok] at hnone
        rw [ih h, hnone]
        simp only [Option.elim_some, Option.elim_none]
        omega
      · rw [ih h, List.map_append, List.sum_append]
        simp only [List.map_cons, List.map_nil, List.sum_cons, List.sum_nil]
        omega

theorem matchUncleGens_subperm {height : Nat} {want : List Bytes} {gens : List FullTx} {u : Unit}
    (h : matchUncleGens height want gens = .ok u) : (gens.map FullTx.mintKey).Subperm want := by
  induction gens generalizing want with
  | nil => exact List.nil_subperm
  | cons g gens ih =>
    obtain ⟨_, -, h⟩ := bind_eq_ok.mp h
    obtain ⟨_, -, h⟩ := bind_eq_ok.mp h
    obtain ⟨_, hmem, h⟩ := bind_eq_ok.mp h
    rw [ensure_eq_ok] at hmem
    exact (List.subperm_cons _).mpr (ih h) |>.trans (List.perm_cons_erase hmem).symm.subperm

namespace FullBlock

/-- **`minted`** — the reward of the block and of its uncles. -/
def minted (block : FullBlock) : Nat :=
  getBlockReward block.getHeight + (block.uncles.map fun u => uncleReward u.height block.getHeight).sum

/-- **`burnt`** — the fees of the transactions that are no mints, and of the commitments. -/
def burnt (block : FullBlock) : Nat :=
  ((block.txs.filter (·.type ≠ generateTx)).map FullTx.fee).sum + (block.commits.map Commitment.fee).sum

/-- What the transactions add is what they mint, less their fees. -/
theorem additions_eq (txs : List FullTx) : (txs.map FullTx.addition).sum =
    (mintedBy txs : Int) - ((txs.filter (·.type ≠ generateTx)).map FullTx.fee).sum := by
  induction txs with
  | nil => rfl
  | cons tx txs ih =>
    rw [List.map_cons, List.sum_cons, ih, mintedBy_cons, FullTx.addition]
    by_cases htype : tx.type = generateTx
    · rw [if_pos htype, if_pos htype, List.filter_cons_of_neg (by simpa using htype)]
      push_cast
      ring
    · rw [if_neg htype, if_neg htype, List.filter_cons_of_pos (by simpa using htype), List.map_cons, List.sum_cons]
      push_cast
      ring

end FullBlock

section Blocks

variable [Engine]

/-- **The mints of a checked block** come to its reward and those of its uncles, when every uncle's coinbase has the
size of an address. -/
theorem mintedBy_checked {v : View} {block : FullBlock} (hcheck : checkBlockTxs v block = .ok ())
    (huncles : ∀ u ∈ block.uncles, u.coinbase.length = addressSize) : mintedBy block.txs = block.minted := by
  obtain ⟨_, hgens, -⟩ := bind_eq_ok.mp hcheck
  obtain ⟨⟨primary, gens⟩, hsplit, hgens⟩ := bind_eq_ok.mp hgens
  have hsum := splitGenerates_sum hsplit
  cases primary with
  | none => cases hgens
  | some primary =>
    obtain ⟨_, -, hgens⟩ := bind_eq_ok.mp hgens
    obtain ⟨_, hprimary, hgens⟩ := bind_eq_ok.mp hgens
    obtain ⟨_, hcount, hmatch⟩ := bind_eq_ok.mp hgens
    rw [ensure_eq_ok] at hcount
    obtain ⟨_, hreward, hprimary⟩ := bind_eq_ok.mp hprimary
    obtain ⟨_, hfee, -⟩ := bind_eq_ok.mp hprimary
    rw [ensure_eq_ok] at hreward hfee
    have hperm : (gens.map FullTx.mintKey).Perm (block.uncles.map (uncleKey block.getHeight)) := by
      refine (matchUncleGens_subperm hmatch).perm_of_length_le ?_
      rw [List.length_map, List.length_map, hcount]
    -- the amounts are read off the keys
    have hamounts := (hperm.map keyAmount).sum_eq
    rw [List.map_map, List.map_map] at hamounts
    rw [show gens.map (keyAmount ∘ FullTx.mintKey) = gens.map FullTx.value from
        List.map_congr_left fun g _ => keyAmount_append g.toAddr.property g.value,
      show block.uncles.map (keyAmount ∘ uncleKey block.getHeight) =
          block.uncles.map (fun u => uncleReward u.height block.getHeight) from
        List.map_congr_left fun u hu => keyAmount_append (huncles u hu) _] at hamounts
    unfold FullTx.totalExpenditure at hreward
    unfold FullBlock.minted
    simp only [Option.elim_some, Option.elim_none, List.map_nil, List.sum_nil] at hsum
    omega

theorem upgrade_shifts {cfg : Config} {block : FullBlock} {s s' : State}
    (hrun : (upgrade cfg block).exec s = .ok ((), s')) :
    s.Shifts (mintedBy block.txs - block.burnt) s' := by
  have h := adds_upgrade block s () s' hrun
  have hcommits : (block.commits.map fun c => -(c.fee : Int)).sum = -((block.commits.map Commitment.fee).sum : Nat) := by
    induction block.commits with
    | nil => rfl
    | cons c l ih =>
      rw [List.map_cons, List.sum_cons, ih, List.map_cons, List.sum_cons]
      push_cast
      ring
  rw [FullBlock.additions_eq, hcommits, show (_ : Int) + _ = mintedBy block.txs - block.burnt by
    unfold FullBlock.burnt; omega] at h
  exact h

theorem State.Reached.amounts_nonneg {s : State} (h : State.Reached s) :
    ∀ (a : Address) (v : Int), .amount a v ∈ s.log → 0 ≤ v := by
  induction h with
  | genesis hinit =>
    obtain ⟨g, -, hrun⟩ := State.initStateFromGenesis_eq_ok hinit
    exact fun a v hv => ((upgrade_shifts hrun).amounts a v hv).resolve_left fun h => by cases h
  | upgrade _ hrun ih => exact fun a v hv => ((upgrade_shifts hrun).amounts a v hv).elim (ih a v) id
  | @unwind s h _ ih => exact fun a v hv => ih a v (State.quiet_unwindHeight h s _ rfl hv)
  | @sheet s sheet _ ih => exact fun a v hv => ih a v (State.quiet_rebuildFromSheet sheet s _ rfl hv)
  | @replay cfg blocks s s' _ hrun ih =>
    have hruns : ∀ {t t' : State} {blocks : List FullBlock}, UpgradesTo cfg t blocks t' →
        (∀ (a : Address) (v : Int), .amount a v ∈ t.log → 0 ≤ v) →
        ∀ (a : Address) (v : Int), .amount a v ∈ t'.log → 0 ≤ v := by
      intro t t' blocks hto
      induction hto with
      | nil => exact id
      | cons head _ ih => exact fun ht => ih fun a v hv => ((upgrade_shifts head).amounts a v hv).elim (ht a v) id
    exact hruns (upgradesTo_of_applyBlocks hrun) fun a v hv =>
      ih a v (State.quiet_rebuildFromSheet State.getGenesisSheet s _ rfl hv)

/-- **What a block does to the sum of all balances**: it adds the rewards of the block and of its uncles, and takes out
the fees; and no amount written on the way, or ever before, is negative. -/
theorem State.Reached.upgrade_supply {cfg : Config} {block : FullBlock} {s s' : State} (hs : State.Reached s)
    (hcheck : checkBlockTxs s.view block = .ok ()) (huncles : ∀ u ∈ block.uncles, u.coinbase.length = addressSize)
    (hrun : (NgCore.upgrade cfg block).exec s = .ok ((), s')) :
    s'.supply + block.burnt = s.supply + block.minted ∧ ∀ (a : Address) (v : Int), .amount a v ∈ s'.log → 0 ≤ v := by
  refine ⟨?_, (hs.upgrade hrun).amounts_nonneg⟩
  have hsupply := (upgrade_shifts hrun).supply
  rw [mintedBy_checked hcheck huncles] at hsupply
  omega

end Blocks

/-! ## §6 — one block by hand -/

/-- A block of height two with an uncle of height one, and one unsigned mint. -/
def nephew (coinbase : Bytes) (value : Nat) : FullBlock :=
  letI := Crypto.ofHash handHash
  { handSeal (handBlock 1 [] []) 1 [handMint 2 (handAddr 2) value] [] with
    uncles := [{ (handBlock 1 [] []).header with coinbase }] }

/-- The block passes the checks on its transactions, and applies. -/
def nephewPasses (coinbase : Bytes) (value : Nat) : Bool :=
  letI := Engine.bare
  (checkBlockTxs (State.genesis false).view (nephew coinbase value)).isOk &&
    ((upgrade ⟨ZERONET, false⟩ (nephew coinbase value)).exec (State.genesis false)).isOk

theorem exists_of_nephewPasses {coinbase : Bytes} {value : Nat} (h : nephewPasses coinbase value = true) :
    letI := Engine.bare
    checkBlockTxs (State.genesis false).view (nephew coinbase value) = .ok () ∧
      ∃ s', (upgrade ⟨ZERONET, false⟩ (nephew coinbase value)).exec (State.genesis false) = .ok ((), s') := by
  let _ := Engine.bare
  obtain ⟨hcheck, hrun⟩ := Bool.and_eq_true_iff.mp h
  refine ⟨?_, _, State.eq_after hrun⟩
  cases hx : checkBlockTxs (State.genesis false).view (nephew coinbase value) with
  | error e =>
    rw [hx] at hcheck
    cases hcheck
  | ok u => rfl

/-- An uncle of key 2, paid for. -/
theorem upgrade_supply_nephew :
    letI := Engine.bare
    ∃ s', (upgrade ⟨ZERONET, false⟩ (nephew (handAddr 2).val (uncleReward 1 2))).exec (State.genesis false) =
        .ok ((), s') ∧
      s'.supply + (nephew (handAddr 2).val (uncleReward 1 2)).burnt =
        (State.genesis false).supply + (nephew (handAddr 2).val (uncleReward 1 2)).minted := by
  let _ := Engine.bare
  have hpasses : nephewPasses (handAddr 2).val (uncleReward 1 2) = true := by decide +kernel
  obtain ⟨hcheck, s', hrun⟩ := exists_of_nephewPasses hpasses
  refine ⟨s', hrun, ((State.Reached.genesis (State.genesis_eq false)).upgrade_supply hcheck ?_ hrun).1⟩
  intro u hu
  rw [List.mem_singleton.mp hu]
  exact (handAddr 2).property

/-- A coinbase one digit too long: the mint pays ten times what the uncle earned, and more. -/
theorem supply_misread_uncle :
    letI := Engine.bare
    let block := nephew ((handAddr 2).val ++ decimal 9) (readDecimal (decimal 9 ++ decimal (uncleReward 1 2)))
    checkBlockTxs (State.genesis false).view block = .ok () ∧
      ∃ s', (upgrade ⟨ZERONET, false⟩ block).exec (State.genesis false) = .ok ((), s') ∧
        s'.supply + block.burnt ≠ (State.genesis false).supply + block.minted := by
  let _ := Engine.bare
  intro block
  have hpasses : nephewPasses ((handAddr 2).val ++ decimal 9)
      (readDecimal (decimal 9 ++ decimal (uncleReward 1 2))) = true ∧ mintedBy block.txs ≠ block.minted := by
    decide +kernel
  obtain ⟨hcheck, s', hrun⟩ := exists_of_nephewPasses hpasses.1
  refine ⟨hcheck, s', hrun, fun heq => hpasses.2 ?_⟩
  have hsupply : (s'.supply : Int) = (State.genesis false).supply + (mintedBy block.txs - block.burnt) :=
    (upgrade_shifts hrun).supply
  omega

end NgCore
