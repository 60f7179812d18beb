/-
# NgCore.State.Flush — what a contract run leaves in the state

A run works on a journal and the state sees nothing of it before `flush`: a run that completes writes the pending
balances and the account copies back, in whatever order the maps are iterated; a run that does not complete leaves
its notes and nothing else.

DELIVERABLE: `exec_runContract`, and the reads after a flush.
-/
import NgCore.State.Slots
import NgCore.VM.Invariants

namespace NgCore

open Lib (Bucket Versioned Txn)

namespace State

/-! ## §1 — writing pending entries -/

section Put

variable [Crypto] (rec : Recorder)

/-- Write pending balances, in the order of the list. -/
def putBalances (l : List (Address × Int)) (s : State) : State := l.foldl (fun s e => s.setBalance rec e.1 e.2) s

/-- Write account copies, in the order of the list. -/
def putAccounts (l : List (Address × Contract)) (s : State) : State := l.foldl (fun s e => s.setContract rec e.2) s

/-- The state with the notes of a run on its trail. -/
def noted (l : List RunNote) (s : State) : State := { s with log := l.map .run ++ s.log }

variable {rec}

/-- What a stored account looks like. -/
def stored (acc : Contract) : StoredContract := ⟨acc.owner, hash256 acc.source, acc.context⟩

/-- Storing a contract touches slots, registry, leaf and trail. -/
theorem bal_setContract (account : Contract) (s : State) : (s.setContract rec account).bal = s.bal := by
  obtain ⟨code, hcode⟩ := reconcileCode_eq rec account s
  unfold setContract
  simp only [hcode]
  rfl

theorem slots_putBalances (l : List (Address × Int)) (s : State) : (s.putBalances rec l).slots = s.slots := by
  induction l generalizing s with
  | nil => rfl
  | cons e l ih => exact ih _

theorem cur_putAccounts (l : List (Address × Contract)) (s : State) :
    (s.putAccounts rec l).contract.cur = l.foldl (fun b e => b.insert e.2.owner (stored e.2)) s.contract.cur := by
  induction l generalizing s with
  | nil => rfl
  | cons e l ih =>
    have hstep : (s.setContract rec e.2).contract.cur = s.contract.cur.insert e.2.owner (stored e.2) :=
      cur_setContract rec e.2 s
    rw [List.foldl_cons, ← hstep]
    exact ih _

/-- **A slot after the account copies are written.** -/
theorem contract_putAccounts {l : List (Address × Contract)} {b : Bucket Address Contract}
    (hl : ∀ e, e ∈ l ↔ b[e.1]? = some e.2) (howner : ∀ (a : Address) (acc : Contract), b[a]? = some acc → acc.owner = a) (s : State)
    (a : Address) :
    (s.putAccounts rec l).contract.cur[a]? = ((b[a]?).map stored).or s.contract.cur[a]? := by
  rw [cur_putAccounts]
  obtain ⟨hother, hrow⟩ :=
    Bucket.get_foldl_insert (fun e : Address × Contract => e.2.owner) (fun e => stored e.2) l s.contract.cur a
  have howners : ∀ e ∈ l, e.2.owner = e.1 := fun e he => howner e.1 e.2 ((hl e).mp he)
  by_cases hmem : a ∈ l.map fun e => e.2.owner
  · obtain ⟨e, he, rfl, hget⟩ := hrow hmem
    have hb := (hl e).mp he
    rw [← howners e he] at hb
    rw [hget, hb]
    rfl
  · rw [hother hmem]
    cases hb : b[a]? with
    | none => rfl
    | some acc => exact absurd (List.mem_map.mpr ⟨(a, acc), (hl (a, acc)).mpr hb, howner a acc hb⟩) hmem

end Put
end State

/-! ## §2 — flush -/

section Flush

variable [Crypto] {rec : Recorder}

/-- **`flush` never fails**, and writes all pending entries. -/
theorem exec_flush (j : Journal) (s : State) :
    (j.flush rec).exec s = .ok ((), (s.putBalances rec j.balances.toList).putAccounts rec j.accounts.toList) := by
  have hbalances : ∀ (l : List (Address × Int)) (s : State),
      (l.forM fun e => Txn.tell (Write.setBalance rec e.1 e.2) : StateTxn Unit).exec s = .ok ((), s.putBalances rec l) := by
    intro l
    induction l with
    | nil => exact fun _ => rfl
    | cons e l ih => exact fun s => StateTxn.exec_bind_ok.mpr ⟨(), _, rfl, ih _⟩
  have haccounts : ∀ (l : List (Address × Contract)) (s : State),
      (l.forM fun e => Txn.tell (Write.setContract rec e.2) : StateTxn Unit).exec s = .ok ((), s.putAccounts rec l) := by
    intro l
    induction l with
    | nil => exact fun _ => rfl
    | cons e l ih => exact fun s => StateTxn.exec_bind_ok.mpr ⟨(), _, rfl, ih _⟩
  exact StateTxn.exec_bind_ok.mpr ⟨(), _, hbalances _ s, haccounts _ _⟩

/-- The state after a flush. -/
def Journal.flushed (rec : Recorder) (j : Journal) (s : State) : State :=
  (s.putBalances rec j.balances.toList).putAccounts rec j.accounts.toList

theorem Journal.contract_flushed {j : Journal}
    (howner : ∀ (a : Address) (acc : Contract), j.accounts[a]? = some acc → acc.owner = a) (s : State) (a : Address) :
    (j.flushed rec s).contract.cur[a]? = ((j.accounts[a]?).map State.stored).or s.contract.cur[a]? := by
  unfold Journal.flushed
  rw [State.contract_putAccounts (fun e => Bucket.mem_toList_iff _ e.1 e.2) howner]
  rw [show (s.putBalances rec j.balances.toList).contract = s.contract from
    congrArg Prod.fst (State.slots_putBalances j.balances.toList s)]

end Flush

/-! ## §3 — one contract run -/

section Runs

variable [Engine] {rec : Recorder} {addr : Address} {tx : FullTx} {entry : String} {blockTime gas gas' : Nat}
  {s s' : State}

/-- **`Completes`** — the entry of the contract at `addr` ran to completion and left the run `vm`. -/
structure Completes (s : State) (addr : Address) (tx : FullTx) (entry : String) (blockTime gas : Nat)
    (account : Contract) (m : Module) (vm : VM) : Prop where
  contract : s.view.contract addr = some account
  live : account.isLive = true
  solvent : gas ≠ 0
  loads : loadContractWasm account.source = some m
  links : (newVM s.view account tx blockTime m).1 = some ()
  runs : (newVM s.view account tx blockTime m).2.runEntry s.view account.owner m entry gas = (true, vm)

/-- **What one run does**: it completes and flushes its journal, or it leaves notes only. -/
theorem exec_runContract {ok : Bool}
    (h : (runContract rec addr tx entry blockTime gas).exec s = .ok ((ok, gas'), s')) :
    (ok = false ∧ ∃ l, s' = s.noted l) ∨
      ok = true ∧ ∃ account m vm l, Completes s addr tx entry blockTime gas account m vm ∧
        s' = vm.journal.flushed rec (s.noted l) := by
  obtain ⟨v, t, hlook, h⟩ := StateTxn.exec_bind_ok.mp h
  obtain ⟨rfl, rfl⟩ := Prod.mk.inj (Except.ok.inj hlook)
  -- a run that is not started leaves nothing at all
  have hstay : ∀ {g : Nat}, (pure (false, g) : StateTxn (Bool × Nat)).exec s = .ok ((ok, gas'), s') →
      ok = false ∧ ∃ l, s' = s.noted l := by
    intro g h
    obtain ⟨hret, rfl⟩ := Prod.mk.inj (Except.ok.inj h)
    exact ⟨(Prod.mk.inj hret).1.symm, [], rfl⟩
  split at h
  · exact .inl (hstay h)
  · next account hacc =>
    split at h
    · exact .inl (hstay h)
    · next hlive =>
      rw [not_or, Bool.not_eq_false] at hlive
      split at h
      · exact .inl (hstay h)
      · next m hm =>
        split at h
        · obtain ⟨_, t, hnotes, h⟩ := StateTxn.exec_bind_ok.mp h
          obtain ⟨-, rfl⟩ := Prod.mk.inj (Except.ok.inj hnotes)
          obtain ⟨hret, rfl⟩ := Prod.mk.inj (Except.ok.inj h)
          exact .inl ⟨(Prod.mk.inj hret).1.symm, _, rfl⟩
        · next vm₀ hnew =>
          cases hrun : vm₀.runEntry s.view account.owner m entry gas with
          | mk done vm =>
            rw [hrun] at h
            obtain ⟨_, t, hnotes, h⟩ := StateTxn.exec_bind_ok.mp h
            obtain ⟨_, u, hflush, h⟩ := StateTxn.exec_bind_ok.mp h
            obtain ⟨hret, rfl⟩ := Prod.mk.inj (Except.ok.inj h)
            obtain ⟨rfl, rfl⟩ := Prod.mk.inj hret
            obtain ⟨-, rfl⟩ := Prod.mk.inj (Except.ok.inj hnotes)
            cases done with
            | false =>
              obtain ⟨-, rfl⟩ := Prod.mk.inj (Except.ok.inj hflush)
              exact .inl ⟨rfl, _, rfl⟩
            | true =>
              rw [StateTxn.when, if_pos rfl, exec_flush] at hflush
              obtain ⟨-, rfl⟩ := Prod.mk.inj (Except.ok.inj hflush)
              refine .inr ⟨rfl, account, m, vm, _, ⟨hacc, hlive.1, hlive.2, hm, ?_, ?_⟩, rfl⟩
              · rw [hnew]
              · rw [hnew]
                exact hrun

/-- The journal of a completed run: the state's accounts, up to what a run may write. -/
theorem Completes.kept {account : Contract} {m : Module} {vm : VM} (hs : s.Housed)
    (h : Completes s addr tx entry blockTime gas account m vm) : vm.journal.Kept s.view := by
  have howner : account.owner = addr := hs.owner h.contract
  have hkept := (journalled_kept s.view).runEntry (kept_newVMJournal (howner ▸ h.contract)) tx blockTime m entry gas
  rw [h.runs] at hkept
  exact hkept

/-- **The slots after a completed run**: every slot stands, with the storage the run left. -/
theorem Completes.contract_flushed {account : Contract} {m : Module} {vm : VM} (hs : s.Housed)
    (h : Completes s addr tx entry blockTime gas account m vm) (l : List RunNote) (a : Address) :
    (vm.journal.flushed rec (s.noted l)).contract.cur[a]? =
      ((vm.journal.accounts[a]?).map State.stored).or s.contract.cur[a]? := by
  apply Journal.contract_flushed
  intro b acc hacc
  obtain ⟨old, hold, howner, -⟩ := h.kept hs b acc hacc
  exact howner.trans (hs.owner hold)

end Runs
end NgCore
