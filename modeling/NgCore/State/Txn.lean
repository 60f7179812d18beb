/-
# NgCore.State.Txn — state transactions

Every function of the source that runs inside a write transaction is a program over two effects: read
the `View`, issue one of the `Write`s of `NgCore.State.Store`. Keeping the programs as data
(`Lib.Txn`) is what lets every invariant be proved once per WRITE and hold of every program.
-/
import NgCore.State.Store
import NgCore.Lib.Txn

namespace NgCore

open Lib (Txn)

/-! ## §1 — writes -/

/-- **`Write`** — the write helpers, as data. -/
inductive Write where
  | setBalance (rec : Recorder) (a : Address) (v : Int)
  | setContract (rec : Recorder) (account : Contract)
  | delContract (rec : Recorder) (a : Address)
  | registerPubKey (rec : Recorder) (a : Address) (scheme : SigScheme) (pubKey : Bytes)
  | setBeacon (rec : Recorder) (seed : Bytes32)
  | putCommit (height : Nat) (hash : Bytes32) (fromAddr : Address)
  | consumeCommit (height : Nat) (hash : Bytes32)
  | journalConsumed (revealHeight recordHeight : Nat) (hash : Bytes32) (fromAddr : Address)
  | pruneCommits (tip : Nat)
  /-- Leave the notes of a contract run on the trail. -/
  | notes (l : List RunNote)
  /-- The block is applied. -/
  | apply (block : FullBlock)

/-- A program over the state. -/
abbrev StateTxn := Txn View Write Err

/-- **`step`** — what a write does. -/
def Write.step [Crypto] : Write → State → State
  | .setBalance rec a v => State.setBalance rec a v
  | .setContract rec account => State.setContract rec account
  | .delContract rec a => State.delContract rec a
  | .registerPubKey rec a scheme pubKey => State.registerPubKey rec a (scheme :: pubKey)
  | .setBeacon rec seed => State.setBeacon rec seed.val
  | .putCommit height hash fromAddr => State.putCommit height hash fromAddr
  | .consumeCommit height hash => State.consumeCommit height hash
  | .journalConsumed rh h hash fromAddr => State.journalConsumed rh h hash fromAddr
  | .pruneCommits tip => State.pruneCommits tip
  | .notes l => fun s => { s with log := l.map .run ++ s.log }
  | .apply block => fun s => { s with applied := block :: s.applied }

namespace StateTxn

/-- Run a program on a state; on failure the transaction rolls back. -/
def exec [Crypto] {α : Type} (p : StateTxn α) (s : State) : Except Err (α × State) :=
  p.run State.view Write.step s

/-- Fail with `e` unless `c` holds. -/
def require (c : Prop) [Decidable c] (e : Err) : StateTxn Unit :=
  if c then pure () else .fail e

/-- Do `p` only when `c` holds. -/
def when (c : Prop) [Decidable c] (p : StateTxn Unit) : StateTxn Unit := if c then p else pure ()

section Exec

variable [Crypto] {α β : Type}

@[simp] theorem exec_pure (a : α) (s : State) : exec (pure a) s = .ok (a, s) := rfl

@[simp] theorem exec_fail (e : Err) (s : State) : exec (.fail e : StateTxn α) s = .error e := rfl

@[simp] theorem exec_look (s : State) : exec Txn.look s = .ok (s.view, s) := rfl

@[simp] theorem exec_tell (w : Write) (s : State) : exec (Txn.tell w) s = .ok ((), w.step s) := rfl

@[simp] theorem exec_ofExcept (x : Except Err α) (s : State) :
    exec (Txn.ofExcept x) s = x.map (·, s) :=
  Txn.run_ofExcept x s

@[simp] theorem exec_require {c : Prop} [Decidable c] {e : Err} (s : State) :
    exec (require c e) s = if c then .ok ((), s) else .error e := by
  unfold require
  split <;> rfl

@[simp] theorem exec_bind (x : StateTxn α) (f : α → StateTxn β) (s : State) :
    exec (x >>= f) s = exec x s >>= fun r => exec (f r.1) r.2 :=
  Txn.run_bind x f s

/-- **Inversion**: a successful sequence is a success of each part. -/
theorem exec_bind_ok {x : StateTxn α} {f : α → StateTxn β} {s s' : State} {b : β} :
    exec (x >>= f) s = .ok (b, s') ↔
      ∃ a t, exec x s = .ok (a, t) ∧ exec (f a) t = .ok (b, s') :=
  Txn.run_bind_ok

theorem exec_ofExcept_ok {x : Except Err α} {s s' : State} {a : α} :
    exec (Txn.ofExcept x) s = .ok (a, s') ↔ x = .ok a ∧ s' = s :=
  Txn.run_ofExcept_ok

theorem exec_require_ok {c : Prop} [Decidable c] {e : Err} {s s' : State} {u : Unit} :
    exec (require c e) s = .ok (u, s') ↔ c ∧ s' = s := by
  rw [exec_require]
  split
  · next h => simp [h, eq_comm]
  · next h => simp [h]

/-- **`Ensures P p Q`** — run on a state that satisfies `P`, the program fails or satisfies `Q`. -/
abbrev Ensures (P : State → Prop) (p : StateTxn α) (Q : α → State → Prop) : Prop :=
  Txn.Ensures State.view Write.step P p Q

variable {P : State → Prop} {Q : β → State → Prop}

theorem ensures_require_bind {c : Prop} [Decidable c] {e : Err} {f : Unit → StateTxn β}
    (hf : c → Ensures P (f ()) Q) : Ensures P (require c e >>= f) Q := by
  unfold require
  split
  · next hc => exact hf hc
  · exact Txn.ensures_fail e

theorem ensures_when {c : Prop} [Decidable c] {p : StateTxn Unit} (hp : c → Ensures P p fun _ => P) :
    Ensures P (when c p) fun _ => P := by
  unfold when
  split
  · next hc => exact hp hc
  · exact Txn.ensures_pure fun _ hs => hs

end Exec
end StateTxn

/-! ## §2 — reads -/

/-- **`keyResolver`** — the registry of compact envelopes. -/
def View.keyResolver (v : View) : PubKeyResolver := v.key

/-- **`getBeacon`** — the seed contracts see: the parent block's, all-zero before the first. -/
def View.getBeacon (v : View) : Bytes32 := copy32 (v.beacon.getD [])

/-- **`findCommit`** — the earliest in-window commitment of `fromAddr` to `hash`, recorded STRICTLY below
the reveal height. -/
def View.findCommit (v : View) (fromAddr : Address) (hash : Bytes32) (revealHeight : Nat) :
    Option Nat :=
  let low := revealHeight - commitWindow
  (List.range' low (revealHeight - low)).find? fun h => v.commit h hash = some fromAddr

/-- **`commitFromPending`** — the same committer already has this hash pending below `height`; the scan
reaches one past the window. -/
def View.commitFromPending (v : View) (fromAddr : Address) (hash : Bytes32) (height : Nat) : Bool :=
  let low := height - commitWindow - 1
  (List.range' low (height - low)).any fun h => v.commit h hash = some fromAddr

theorem View.findCommit_eq_some {v : View} {a : Address} {hash : Bytes32} {reveal h : Nat}
    (hf : v.findCommit a hash reveal = some h) :
    v.commit h hash = some a ∧ reveal - commitWindow ≤ h ∧ h < reveal := by
  unfold View.findCommit at hf
  have hmem := List.mem_of_find?_eq_some hf
  have hprop := List.find?_some hf
  rw [List.mem_range'_1] at hmem
  exact ⟨by simpa using hprop, hmem.1, by omega⟩

theorem View.commitFromPending_eq_true {v : View} {a : Address} {hash : Bytes32} {height : Nat} :
    v.commitFromPending a hash height = true ↔
      ∃ h, height - commitWindow - 1 ≤ h ∧ h < height ∧ v.commit h hash = some a := by
  unfold View.commitFromPending
  rw [List.any_eq_true]
  constructor
  · rintro ⟨h, hmem, hprop⟩
    rw [List.mem_range'_1] at hmem
    exact ⟨h, hmem.1, by omega, by simpa using hprop⟩
  · rintro ⟨h, hlow, hlt, hprop⟩
    refine ⟨h, ?_, by simpa using hprop⟩
    rw [List.mem_range'_1]
    omega

end NgCore
