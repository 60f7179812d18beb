/-
# NgCore.Dandelion — the stem router and its fail-safe timers

`DandelionRouter` (`ngp2p/dandelion.go`). A submission is stemmed to one peer, and a timer fluffs it if it has not
surfaced in time. Arming, dismissal and firing stand in different goroutines around one lock, so a goroutine here is a
`Thread` with the section it runs next, and one step is ONE locked section or ONE external call: between any two of them
every other thread may run, any armed timer may fire, and items may be reported seen. What the outside answers — is
there a successor, did the coin fall, did the send succeed — is the choice of the step.

A timer that fires becomes a thread of its own; stopping it after that stops nothing, and its section then deletes
whatever timer stands under the key. Even so no KEY is lost: the invariant is that the key of an item passed in is
marked, or guarded by a timer in the table, or some thread has yet to decide about it (`Dandelion.Covered`). But a timer
holds the fluff function of the item it was armed for, and keys are hashes without the signature: of two items of one
key only the first is guarded.

The router is the same for transactions and commitments, so it is over any items with keys; `StemItem` is what the node
hands it. The peers' addresses, the delay and the hop count sent on are left out: any armed timer may fire at any time.

DELIVERABLE: `Dandelion.never_lost` — items of distinct keys; `Dandelion.second_lost` — two commitments of one key.
-/
import NgCore.Types.Tx

namespace NgCore

open Lib (Bucket)

/-! ## §1 — the router -/

/-- **`dandelionStempoolCap`** — pending fail-safes at most. -/
def dandelionStempoolCap : Nat := 4096

/-- **`dandelionSeenCap`** — entries of the seen set before it is reset. -/
def dandelionSeenCap : Nat := 2 ^ 16

def txKey (hash : Bytes) : Bytes := 0x74 :: hash

def commitKey (hash : Bytes) : Bytes := 0x63 :: hash

/-- What is stemmed. -/
inductive StemItem where
  | tx (tx : FullTx)
  | commit (commit : Commitment)
  deriving DecidableEq

/-- The key of an item: no signature is in it. -/
def StemItem.key [Crypto] : StemItem → Bytes
  | .tx x => txKey x.getHash.val
  | .commit x => commitKey x.getUnsignedHash.val

/-- One timer made by `AfterFunc`, with the item whose fluff function its callback holds. -/
structure Timer (ι : Type) where
  serial : Nat
  item : ι
  deriving DecidableEq

/-- **`DandelionRouter`** — the fields under the lock. -/
structure DandelionRouter (ι : Type) where
  seen : Bucket Bytes Unit
  timers : Bucket Bytes (Timer ι)
  closed : Bool

def DandelionRouter.markSeenLocked {ι : Type} (k : Bytes) (r : DandelionRouter ι) : DandelionRouter ι :=
  { r with seen := (if dandelionSeenCap ≤ r.seen.size then ∅ else r.seen).insert k () }

/-- What a goroutine does next. -/
inductive Stage where
  /-- `originate`: choose a successor. -/
  | originate
  /-- `relay`: look the item up, -/
  | relay (ttl : Nat)
  /-- flip the coin, -/
  | coin (ttl : Nat)
  /-- choose a successor. -/
  | route
  /-- `scheduleFailsafe`. -/
  | schedule
  /-- The stem send. -/
  | stem
  /-- `dismissFailsafe`. -/
  | dismiss
  /-- `markSeen` before a fluff. -/
  | mark
  /-- The callback of a timer that fired, before its lock. -/
  | callback
  /-- The call of the fluff function. -/
  | fluff
  /-- The same, in the goroutine an overflow starts. -/
  | spawned
  deriving DecidableEq

/-- The goroutine has not decided about its item: it will mark it, arm a timer for it, or find it seen. -/
def Stage.undecided : Stage → Bool
  | .stem | .fluff | .spawned => false
  | _ => true

/-- The goroutine calls the fluff function next. -/
def Stage.fluffs : Stage → Bool
  | .fluff | .spawned => true
  | _ => false

/-- A goroutine, and the item it is about. -/
structure Thread (ι : Type) where
  item : ι
  stage : Stage
  deriving DecidableEq

/-- **`Dandelion`** — the router, the timers that can fire, and the history: items passed in, keys marked, items the
router marked by itself, and items handed to their fluff function. -/
structure Dandelion (ι : Type) where
  router : DandelionRouter ι
  armed : List (Timer ι)
  serial : Nat
  passed : List ι
  marked : List Bytes
  own : List ι
  fluffed : List ι

namespace Dandelion

section Router

variable {ι : Type} [DecidableEq ι] (key : ι → Bytes)

omit [DecidableEq ι] in
def init : Dandelion ι := ⟨⟨∅, ∅, false⟩, [], 0, [], [], [], []⟩

omit [DecidableEq ι] in
/-- A marking; `self` is the item if it is the router's own. -/
def mark (self : Option ι) (k : Bytes) (d : Dandelion ι) : Dandelion ι :=
  { d with
    router := d.router.markSeenLocked k
    marked := k :: d.marked
    own := self.toList ++ d.own }

/-- **`dismissFailsafe`** — a timer that fired already is not stopped. -/
def dismissFailsafe (k : Bytes) (d : Dandelion ι) : Dandelion ι :=
  match d.router.timers[k]? with
  | none => d
  | some timer =>
    { d with
      router := { d.router with timers := d.router.timers.erase k }
      armed := d.armed.filter fun t => t ≠ timer }

def markSeen (self : Option ι) (k : Bytes) (d : Dandelion ι) : Dandelion ι := (d.mark self k).dismissFailsafe k

omit [DecidableEq ι] in
/-- **`scheduleFailsafe`** — with the goroutine it starts. -/
def scheduleFailsafe (x : ι) (d : Dandelion ι) : Dandelion ι × List (Thread ι) :=
  if d.router.closed = true then (d, [])
  else if d.router.seen[key x]? = some () then (d, [])
  -- already armed, whether for this item (stem echo) or for another of its key
  else if (d.router.timers[key x]?).isSome = true then (d, [])
  -- stempool overflow: fluff now
  else if dandelionStempoolCap ≤ d.router.timers.size then (d.mark (some x) (key x), [⟨x, .spawned⟩])
  else
    ({ d with
      router := { d.router with timers := d.router.timers.insert (key x) ⟨d.serial, x⟩ }
      armed := ⟨d.serial, x⟩ :: d.armed
      serial := d.serial + 1 }, [])

omit [DecidableEq ι] in
/-- The locked section of a timer's callback, and the fluff after it. -/
def fireFailsafe (x : ι) (d : Dandelion ι) : Dandelion ι × List (Thread ι) :=
  let d := { d with router := { d.router with timers := d.router.timers.erase (key x) } }
  if d.router.closed = true then (d, [])
  else if d.router.seen[key x]? = some () then (d, [])
  else (d.mark (some x) (key x), [⟨x, .fluff⟩])

/-- **One section of a goroutine**, and the goroutines after it. -/
def runSection (choice : Bool) (x : ι) (d : Dandelion ι) : Stage → Dandelion ι × List (Thread ι)
  | .originate => (d, [⟨x, if choice = true then .schedule else .mark⟩])
  | .relay ttl => (d, if d.router.seen[key x]? = some () then [] else [⟨x, .coin ttl⟩])
  | .coin ttl => (d, [⟨x, if ttl = 0 ∨ choice = true then .mark else .route⟩])
  | .route => (d, [⟨x, if choice = true then .schedule else .mark⟩])
  | .schedule =>
    let (d, started) := d.scheduleFailsafe key x
    (d, ⟨x, .stem⟩ :: started)
  | .stem => (d, if choice = true then [] else [⟨x, .dismiss⟩])
  | .dismiss => (d.dismissFailsafe (key x), [⟨x, .mark⟩])
  | .mark => (d.markSeen (some x) (key x), [⟨x, .fluff⟩])
  | .callback => d.fireFailsafe key x
  | .fluff => ({ d with fluffed := x :: d.fluffed }, [])
  | .spawned => ({ d with fluffed := x :: d.fluffed }, [])

/-- What happens: a submission, a stem item from a peer, a report from the flood, a timer that fires, the next section
of a goroutine, `Close`. -/
inductive Event (ι : Type) where
  | originate (x : ι)
  | relay (x : ι) (ttl : Nat)
  | seen (k : Bytes)
  | fire (timer : Timer ι)
  | run (i : Nat) (choice : Bool)
  | close

/-- **One event**: the router, and the goroutines. -/
def step : Event ι → Dandelion ι × List (Thread ι) → Option (Dandelion ι × List (Thread ι))
  | .originate x, (d, threads) => some ({ d with passed := x :: d.passed }, ⟨x, .originate⟩ :: threads)
  | .relay x ttl, (d, threads) => some ({ d with passed := x :: d.passed }, ⟨x, .relay ttl⟩ :: threads)
  | .seen k, (d, threads) => some (d.markSeen none k, threads)
  | .fire timer, (d, threads) =>
    if timer ∈ d.armed then
      some ({ d with armed := d.armed.filter fun t => t ≠ timer }, ⟨timer.item, .callback⟩ :: threads)
    else none
  | .run i choice, (d, threads) =>
    match threads[i]? with
    | none => none
    | some thread =>
      let (d, next) := d.runSection key choice thread.item thread.stage
      some (d, next ++ threads.eraseIdx i)
  | .close, (d, threads) =>
    some ({ d with
      router := { d.router with closed := true, timers := ∅ }
      armed := d.armed.filter fun t => d.router.timers[key t.item]? ≠ some t }, threads)

/-- A run of events. -/
def run (events : List (Event ι)) (s : Dandelion ι × List (Thread ι)) : Option (Dandelion ι × List (Thread ι)) :=
  events.foldlM (fun s e => step key e s) s

/-! ## §2 — a key is marked, guarded, or undecided -/

/-- **`Covered key d threads`** — what is in the seen set was marked; timers and goroutines are about items passed in; a
timer in the table stands under the key of its item, and can fire or is firing; and while the router is open, the key of
an item passed in is marked, or has a timer in the table, or a goroutine is undecided about it. -/
structure Covered (d : Dandelion ι) (threads : List (Thread ι)) : Prop where
  seen : ∀ k : Bytes, d.router.seen[k]? = some () → k ∈ d.marked
  guards : ∀ t ∈ d.armed, t.item ∈ d.passed
  running : ∀ t ∈ threads, t.item ∈ d.passed
  timers : ∀ (k : Bytes) (timer : Timer ι), d.router.timers[k]? = some timer → key timer.item = k ∧
    timer.item ∈ d.passed ∧ (timer ∈ d.armed ∨ ⟨timer.item, .callback⟩ ∈ threads)
  passed : d.router.closed = false → ∀ x ∈ d.passed, key x ∈ d.marked ∨ (d.router.timers[key x]?).isSome = true ∨
    ∃ t ∈ threads, key t.item = key x ∧ t.stage.undecided = true

/-- How many goroutines are about to fluff the item. -/
def pending (x : ι) (threads : List (Thread ι)) : Nat :=
  threads.countP fun t => t.item = x ∧ t.stage.fluffs = true

/-- **`Balanced d threads`** — every marking of the router itself was followed by a call of the item's fluff function,
or is about to be. -/
def Balanced (d : Dandelion ι) (threads : List (Thread ι)) : Prop :=
  ∀ x, d.own.count x = d.fluffed.count x + pending x threads

variable {key} {d : Dandelion ι} {threads rest next : List (Thread ι)} {x : ι} {stage : Stage}

@[simp] theorem pending_nil (x : ι) : pending x [] = 0 := rfl

theorem pending_cons (x : ι) (t : Thread ι) (threads : List (Thread ι)) :
    pending x (t :: threads) = pending x threads + if t.item = x ∧ t.stage.fluffs = true then 1 else 0 := by
  unfold pending
  rw [List.countP_cons]
  simp

theorem pending_append (x : ι) (l l' : List (Thread ι)) : pending x (l ++ l') = pending x l + pending x l' :=
  List.countP_append

theorem dismissFailsafe_eq (k : Bytes) (d : Dandelion ι) : ∃ armed,
    d.dismissFailsafe k =
      { d with router := { d.router with timers := d.router.timers.erase k }, armed := armed } ∧
    (∀ t ∈ armed, t ∈ d.armed) ∧ ∀ t : Timer ι, d.router.timers[k]? ≠ some t → t ∈ d.armed → t ∈ armed := by
  unfold dismissFailsafe
  cases htimer : d.router.timers[k]? with
  | none =>
    refine ⟨d.armed, ?_, fun t ht => ht, fun t _ ht => ht⟩
    have herase : d.router.timers.erase k = d.router.timers := by
      apply Bucket.ext_get
      intro k'
      rw [Bucket.get_erase]
      split
      · next heq => rw [← heq, htimer]
      · rfl
    rw [herase]
  | some timer =>
    refine ⟨_, rfl, fun t ht => List.mem_of_mem_filter ht, fun t hne ht => List.mem_filter.mpr ⟨ht, ?_⟩⟩
    exact decide_eq_true fun heq => hne (heq ▸ rfl)

namespace Covered

omit [DecidableEq ι] in
theorem perm {threads' : List (Thread ι)} (h : Covered key d threads) (hperm : threads.Perm threads') :
    Covered key d threads' := by
  refine ⟨h.seen, h.guards, fun t ht => h.running t (hperm.mem_iff.mpr ht), fun k timer hk => ?_, fun hopen y hy => ?_⟩
  · rcases h.timers k timer hk with ⟨hkey, hpassed, harmed | hthread⟩
    · exact ⟨hkey, hpassed, .inl harmed⟩
    · exact ⟨hkey, hpassed, .inr (hperm.mem_iff.mp hthread)⟩
  · rcases h.passed hopen y hy with hm | ht | ⟨t, ht, hrest⟩
    · exact .inl hm
    · exact .inr (.inl ht)
    · exact .inr (.inr ⟨t, hperm.mem_iff.mp ht, hrest⟩)

omit [DecidableEq ι] in
/-- A goroutine goes on, about its own item: if it was undecided and the router is open, the key is safe without it. -/
theorem move (h : Covered key d (⟨x, stage⟩ :: rest)) (hcallback : stage ≠ .callback) (hnext : ∀ t ∈ next, t.item = x)
    (hsafe : d.router.closed = false → stage.undecided = true → key x ∈ d.marked ∨
      (d.router.timers[key x]?).isSome = true ∨ ∃ t ∈ next, t.stage.undecided = true) :
    Covered key d (next ++ rest) := by
  refine ⟨h.seen, h.guards, fun t ht => ?_, fun k timer hk => ?_, fun hopen y hy => ?_⟩
  · rcases List.mem_append.mp ht with hn | hrest
    · rw [hnext t hn]
      exact h.running _ List.mem_cons_self
    · exact h.running t (List.mem_cons_of_mem _ hrest)
  · rcases h.timers k timer hk with ⟨hkey, hpassed, harmed | hthread⟩
    · exact ⟨hkey, hpassed, .inl harmed⟩
    · rcases List.mem_cons.mp hthread with heq | hrest
      · exact absurd (congrArg Thread.stage heq).symm hcallback
      · exact ⟨hkey, hpassed, .inr (List.mem_append_right _ hrest)⟩
  · rcases h.passed hopen y hy with hm | ht | ⟨t, ht, hkey, hundecided⟩
    · exact .inl hm
    · exact .inr (.inl ht)
    · rcases List.mem_cons.mp ht with rfl | hrest
      · -- the goroutine itself was the cover
        replace hkey : key x = key y := hkey
        rw [← hkey]
        rcases hsafe hopen hundecided with hm | ht | ⟨t, ht, hthread⟩
        · exact .inl hm
        · exact .inr (.inl ht)
        · exact .inr (.inr ⟨t, List.mem_append_left _ ht, congrArg key (hnext t ht), hthread⟩)
      · exact .inr (.inr ⟨t, List.mem_append_right _ hrest, hkey, hundecided⟩)

omit [DecidableEq ι] in
theorem mark (h : Covered key d threads) (self : Option ι) (k : Bytes) : Covered key (d.mark self k) threads := by
  refine ⟨fun k' hk => ?_, h.guards, h.running, h.timers, fun hopen y hy => ?_⟩
  · -- the set may have been reset before the insertion
    change ((if dandelionSeenCap ≤ d.router.seen.size then ∅ else d.router.seen).insert k ())[k']? = some () at hk
    rw [Bucket.get_insert] at hk
    split at hk
    · next heq => exact heq ▸ List.mem_cons_self
    · split at hk
      · cases hk
      · exact List.mem_cons_of_mem _ (h.seen k' hk)
  · rcases h.passed hopen y hy with hm | hrest
    · exact .inl (List.mem_cons_of_mem _ hm)
    · exact .inr hrest

/-- A timer is dismissed when the key is marked, or about to be. -/
theorem dismiss {k : Bytes} (h : Covered key d threads)
    (hsafe : k ∈ d.marked ∨ ∃ t ∈ threads, key t.item = k ∧ t.stage.undecided = true) :
    Covered key (d.dismissFailsafe k) threads := by
  rcases dismissFailsafe_eq k d with ⟨armed, heq, hfewer, hkeeps⟩
  rw [heq]
  refine ⟨h.seen, fun t ht => h.guards t (hfewer t ht), h.running, fun k' timer hk => ?_, fun hopen y hy => ?_⟩
  · replace hk : (d.router.timers.erase k)[k']? = some timer := hk
    rw [Bucket.get_erase] at hk
    split at hk
    · cases hk
    · next hne =>
      rcases h.timers k' timer hk with ⟨hkey, hpassed, harmed | hthread⟩
      · refine ⟨hkey, hpassed, .inl (hkeeps timer (fun hsame => hne ?_) harmed)⟩
        exact (h.timers k timer hsame).1.symm.trans hkey
      · exact ⟨hkey, hpassed, .inr hthread⟩
  · rcases h.passed hopen y hy with hm | ht | hthread
    · exact .inl hm
    · by_cases hkey : k = key y
      · subst hkey
        rcases hsafe with hm | hthread
        · exact .inl hm
        · exact .inr (.inr hthread)
      · refine .inr (.inl ?_)
        show ((d.router.timers.erase k)[key y]?).isSome = true
        rw [Bucket.get_erase, if_neg hkey]
        exact ht
    · exact .inr (.inr hthread)

theorem markSeen (h : Covered key d threads) (self : Option ι) (k : Bytes) :
    Covered key (d.markSeen self k) threads :=
  (h.mark self k).dismiss (.inl List.mem_cons_self)

omit [DecidableEq ι] in
theorem arm (h : Covered key d threads) (hx : x ∈ d.passed) (serial : Nat) :
    Covered key { d with
      router := { d.router with timers := d.router.timers.insert (key x) ⟨d.serial, x⟩ }
      armed := ⟨d.serial, x⟩ :: d.armed
      serial := serial } threads := by
  refine ⟨h.seen, List.forall_mem_cons.mpr ⟨hx, h.guards⟩, h.running, fun k timer hk => ?_, fun hopen y hy => ?_⟩
  · replace hk : (d.router.timers.insert (key x) ⟨d.serial, x⟩)[k]? = some timer := hk
    rw [Bucket.get_insert] at hk
    split at hk
    · next heq =>
      obtain rfl := Option.some.inj hk
      exact ⟨heq, hx, .inl List.mem_cons_self⟩
    · rcases h.timers k timer hk with ⟨hkey, hpassed, harmed | hthread⟩
      · exact ⟨hkey, hpassed, .inl (List.mem_cons_of_mem _ harmed)⟩
      · exact ⟨hkey, hpassed, .inr hthread⟩
  · rcases h.passed hopen y hy with hm | ht | hthread
    · exact .inl hm
    · refine .inr (.inl ?_)
      show ((d.router.timers.insert (key x) ⟨d.serial, x⟩)[key y]?).isSome = true
      rw [Bucket.get_insert]
      split
      · rfl
      · exact ht
    · exact .inr (.inr hthread)

omit [DecidableEq ι] in
/-- The callback deletes whatever timer stands under its key: it is about to decide about the key itself. -/
theorem delete (h : Covered key d (⟨x, .callback⟩ :: rest)) :
    Covered key { d with router := { d.router with timers := d.router.timers.erase (key x) } }
      (⟨x, .mark⟩ :: rest) := by
  obtain ⟨hx, hothers⟩ := List.forall_mem_cons.mp h.running
  refine ⟨h.seen, h.guards, List.forall_mem_cons.mpr ⟨hx, hothers⟩, fun k timer hk => ?_, fun hopen y hy => ?_⟩
  · replace hk : (d.router.timers.erase (key x))[k]? = some timer := hk
    rw [Bucket.get_erase] at hk
    split at hk
    · cases hk
    · next hne =>
      rcases h.timers k timer hk with ⟨hkey, hpassed, harmed | hthread⟩
      · exact ⟨hkey, hpassed, .inl harmed⟩
      · rcases List.mem_cons.mp hthread with heq | hrest
        · have hitem : timer.item = x := congrArg Thread.item heq
          exact absurd (hitem ▸ hkey) hne
        · exact ⟨hkey, hpassed, .inr (List.mem_cons_of_mem _ hrest)⟩
  · by_cases hkey : key x = key y
    · exact .inr (.inr ⟨_, List.mem_cons_self, hkey, rfl⟩)
    · rcases h.passed hopen y hy with hm | ht | ⟨t, ht, hthread⟩
      · exact .inl hm
      · refine .inr (.inl ?_)
        show ((d.router.timers.erase (key x))[key y]?).isSome = true
        rw [Bucket.get_erase, if_neg hkey]
        exact ht
      · rcases List.mem_cons.mp ht with rfl | hrest
        · exact absurd hthread.1 hkey
        · exact .inr (.inr ⟨t, List.mem_cons_of_mem _ hrest, hthread⟩)

omit [DecidableEq ι] in
theorem scheduleFailsafe (h : Covered key d (⟨x, .schedule⟩ :: rest)) :
    Covered key (d.scheduleFailsafe key x).1 (⟨x, .stem⟩ :: (d.scheduleFailsafe key x).2 ++ rest) := by
  have hstem : ∀ t ∈ [(⟨x, .stem⟩ : Thread ι)], t.item = x := by simp
  unfold Dandelion.scheduleFailsafe
  split
  · next hclosed => exact h.move nofun hstem fun hopen => absurd (hclosed.symm.trans hopen) nofun
  · split
    · next hseen => exact h.move nofun hstem fun _ _ => .inl (h.seen _ hseen)
    · split
      · next harmed => exact h.move nofun hstem fun _ _ => .inr (.inl harmed)
      · split
        · exact (h.mark (some x) (key x)).move nofun (by simp) fun _ _ => .inl List.mem_cons_self
        · refine (h.arm (h.running _ List.mem_cons_self) (d.serial + 1)).move nofun hstem fun _ _ => .inr (.inl ?_)
          show ((d.router.timers.insert (key x) ⟨d.serial, x⟩)[key x]?).isSome = true
          rw [Bucket.get_insert, if_pos rfl]
          rfl

omit [DecidableEq ι] in
theorem fireFailsafe (h : Covered key d (⟨x, .callback⟩ :: rest)) :
    Covered key (d.fireFailsafe key x).1 ((d.fireFailsafe key x).2 ++ rest) := by
  have hdeleted := h.delete
  unfold Dandelion.fireFailsafe
  dsimp only
  split
  · next hclosed => exact hdeleted.move nofun nofun fun hopen => absurd (hclosed.symm.trans hopen) nofun
  · split
    · next hseen => exact hdeleted.move nofun nofun fun _ _ => .inl (h.seen _ hseen)
    · exact (hdeleted.mark (some x) (key x)).move nofun (by simp) fun _ _ => .inl List.mem_cons_self

/-- **Every section keeps every key covered.** -/
theorem runSection (h : Covered key d (⟨x, stage⟩ :: rest)) (choice : Bool) :
    Covered key (d.runSection key choice x stage).1 ((d.runSection key choice x stage).2 ++ rest) := by
  -- a goroutine that only goes on to another undecided stage
  have hon : ∀ stage' : Stage, stage ≠ .callback → stage'.undecided = true → Covered key d ([⟨x, stage'⟩] ++ rest) :=
    fun stage' hne hundecided => h.move hne (by simp) fun _ _ => .inr (.inr ⟨_, List.mem_singleton_self _, hundecided⟩)
  cases stage with
  | originate => exact hon _ nofun (by split <;> rfl)
  | relay ttl =>
    unfold Dandelion.runSection
    dsimp only
    split
    · next hseen => exact h.move nofun nofun fun _ _ => .inl (h.seen _ hseen)
    · exact hon _ nofun rfl
  | coin ttl => exact hon _ nofun (by split <;> rfl)
  | route => exact hon _ nofun (by split <;> rfl)
  | schedule => exact h.scheduleFailsafe
  | stem =>
    unfold Dandelion.runSection
    dsimp only
    split
    · exact h.move nofun nofun fun _ hundecided => absurd hundecided nofun
    · exact hon _ nofun rfl
  | dismiss => exact (hon .mark nofun rfl).dismiss (.inr ⟨_, List.mem_cons_self, rfl, rfl⟩)
  | mark =>
    have hfluff : ∀ t ∈ [(⟨x, .fluff⟩ : Thread ι)], t.item = x := by simp
    refine (h.markSeen (some x) (key x)).move nofun hfluff fun _ _ => .inl ?_
    rcases dismissFailsafe_eq (key x) (d.mark (some x) (key x)) with ⟨armed, heq, -⟩
    unfold Dandelion.markSeen
    rw [heq]
    exact List.mem_cons_self
  | callback => exact h.fireFailsafe
  | fluff =>
    have hmove : Covered key d ([] ++ rest) := h.move nofun nofun fun _ hundecided => absurd hundecided nofun
    exact ⟨hmove.seen, hmove.guards, hmove.running, hmove.timers, hmove.passed⟩
  | spawned =>
    have hmove : Covered key d ([] ++ rest) := h.move nofun nofun fun _ hundecided => absurd hundecided nofun
    exact ⟨hmove.seen, hmove.guards, hmove.running, hmove.timers, hmove.passed⟩

end Covered

theorem pending_quiet (y : ι) {l : List (Thread ι)} (hl : ∀ t ∈ l, t.stage.fluffs = false) : pending y l = 0 := by
  unfold pending
  rw [List.countP_eq_zero]
  intro t ht
  simp [hl t ht]

/-- **Every section keeps the account of markings and fluff calls.** -/
theorem Balanced.runSection (h : Balanced d (⟨x, stage⟩ :: rest)) (choice : Bool) :
    Balanced (d.runSection key choice x stage).1 ((d.runSection key choice x stage).2 ++ rest) := by
  -- a section that marks nothing and calls nothing, by a goroutine that is not about to
  have hquiet : ∀ (d' : Dandelion ι) (l : List (Thread ι)), d'.own = d.own → d'.fluffed = d.fluffed →
      stage.fluffs = false → (∀ t ∈ l, t.stage.fluffs = false) → Balanced d' (l ++ rest) := by
    intro d' l hown hfluffed hstage hl y
    have hy := h y
    rw [pending_cons, if_neg (by simp [hstage])] at hy
    rw [hown, hfluffed, pending_append, pending_quiet y hl]
    omega
  have hon : ∀ stage' : Stage, stage.fluffs = false → stage'.fluffs = false → Balanced d ([⟨x, stage'⟩] ++ rest) :=
    fun stage' hstage hquiet' => hquiet d _ rfl rfl hstage fun t ht => List.mem_singleton.mp ht ▸ hquiet'
  -- a marking of its own, with a goroutine about to fluff
  have hmarks : ∀ (d' : Dandelion ι) (l : List (Thread ι)), d'.own = x :: d.own → d'.fluffed = d.fluffed →
      stage.fluffs = false → (∀ y, pending y l = if x = y then 1 else 0) → Balanced d' (l ++ rest) := by
    intro d' l hown hfluffed hstage hl y
    have hy := h y
    rw [pending_cons, if_neg (by simp [hstage])] at hy
    rw [hown, hfluffed, pending_append, hl y, List.count_cons]
    simp only [beq_iff_eq]
    omega
  -- a call
  have hcalls : stage.fluffs = true → Balanced { d with fluffed := x :: d.fluffed } rest := by
    intro hstage y
    have hy := h y
    rw [pending_cons] at hy
    show d.own.count y = (x :: d.fluffed).count y + _
    rw [hy, List.count_cons]
    simp only [hstage, and_true, beq_iff_eq]
    omega
  have hdismiss : ∀ d' : Dandelion ι, (d'.dismissFailsafe (key x)).own = d'.own ∧
      (d'.dismissFailsafe (key x)).fluffed = d'.fluffed := by
    intro d'
    rcases dismissFailsafe_eq (key x) d' with ⟨armed, heq, -⟩
    rw [heq]
    exact ⟨rfl, rfl⟩
  cases stage with
  | originate => exact hon _ rfl (by split <;> rfl)
  | relay ttl =>
    unfold Dandelion.runSection
    dsimp only
    split
    · exact hquiet d [] rfl rfl rfl nofun
    · exact hon _ rfl rfl
  | coin ttl => exact hon _ rfl (by split <;> rfl)
  | route => exact hon _ rfl (by split <;> rfl)
  | schedule =>
    unfold Dandelion.runSection Dandelion.scheduleFailsafe
    dsimp only
    split
    · exact hon .stem rfl rfl
    · split
      · exact hon .stem rfl rfl
      · split
        · exact hon .stem rfl rfl
        · split
          · exact hmarks (d.mark (some x) (key x)) [⟨x, .stem⟩, ⟨x, .spawned⟩] rfl rfl rfl
              (by simp [pending_cons, Stage.fluffs])
          · exact hquiet _ [⟨x, .stem⟩] rfl rfl rfl (by simp [Stage.fluffs])
  | stem =>
    unfold Dandelion.runSection
    dsimp only
    split
    · exact hquiet d [] rfl rfl rfl nofun
    · exact hon _ rfl rfl
  | dismiss => exact hquiet _ [⟨x, .mark⟩] (hdismiss d).1 (hdismiss d).2 rfl (by simp [Stage.fluffs])
  | mark =>
    exact hmarks _ [⟨x, .fluff⟩] (hdismiss (d.mark (some x) (key x))).1 (hdismiss (d.mark (some x) (key x))).2 rfl
      (by simp [pending_cons, Stage.fluffs])
  | callback =>
    unfold Dandelion.runSection Dandelion.fireFailsafe
    dsimp only
    split
    · exact hquiet _ [] rfl rfl rfl nofun
    · split
      · exact hquiet _ [] rfl rfl rfl nofun
      · exact hmarks _ [⟨x, .fluff⟩] rfl rfl rfl (by simp [pending_cons, Stage.fluffs])
  | fluff => exact hcalls rfl
  | spawned => exact hcalls rfl

/-! ## §3 — every interleaving -/

variable (key) in
/-- The states a router reaches. -/
inductive Reachable : Dandelion ι → List (Thread ι) → Prop
  | init : Reachable init []
  | step {d d' : Dandelion ι} {threads threads' : List (Thread ι)} (e : Event ι) : Reachable d threads →
      Dandelion.step key e (d, threads) = some (d', threads') → Reachable d' threads'

/-- **One event keeps both invariants.** -/
theorem keeps_step {d' : Dandelion ι} {threads' : List (Thread ι)} {e : Event ι} (hc : Covered key d threads)
    (hb : Balanced d threads) (h : Dandelion.step key e (d, threads) = some (d', threads')) :
    Covered key d' threads' ∧ Balanced d' threads' := by
  -- a call enters with an undecided goroutine
  have henter : ∀ (x : ι) (stage : Stage), stage.undecided = true → stage.fluffs = false →
      Covered key { d with passed := x :: d.passed } (⟨x, stage⟩ :: threads) ∧
      Balanced { d with passed := x :: d.passed } (⟨x, stage⟩ :: threads) := by
    intro x stage hundecided hfluffs
    refine ⟨⟨hc.seen, fun t ht => List.mem_cons_of_mem _ (hc.guards t ht), List.forall_mem_cons.mpr
      ⟨List.mem_cons_self, fun t ht => List.mem_cons_of_mem _ (hc.running t ht)⟩, fun k timer hk => ?_,
      fun hopen y hy => ?_⟩, fun y => ?_⟩
    · rcases hc.timers k timer hk with ⟨hkey, hpassed, harmed | hthread⟩
      · exact ⟨hkey, List.mem_cons_of_mem _ hpassed, .inl harmed⟩
      · exact ⟨hkey, List.mem_cons_of_mem _ hpassed, .inr (List.mem_cons_of_mem _ hthread)⟩
    · rcases List.mem_cons.mp hy with rfl | hy
      · exact .inr (.inr ⟨_, List.mem_cons_self, rfl, hundecided⟩)
      · rcases hc.passed hopen y hy with hm | ht | ⟨t, ht, hrest⟩
        · exact .inl hm
        · exact .inr (.inl ht)
        · exact .inr (.inr ⟨t, List.mem_cons_of_mem _ ht, hrest⟩)
    · rw [pending_cons, if_neg (by simp [hfluffs])]
      exact hb y
  cases e with
  | originate x =>
    obtain ⟨rfl, rfl⟩ := Prod.mk.inj (Option.some.inj h)
    exact henter x .originate rfl rfl
  | relay x ttl =>
    obtain ⟨rfl, rfl⟩ := Prod.mk.inj (Option.some.inj h)
    exact henter x (.relay ttl) rfl rfl
  | seen k =>
    obtain ⟨rfl, rfl⟩ := Prod.mk.inj (Option.some.inj h)
    refine ⟨hc.markSeen none k, fun y => ?_⟩
    rcases dismissFailsafe_eq k (d.mark none k) with ⟨armed, heq, -⟩
    unfold Dandelion.markSeen
    rw [heq]
    exact hb y
  | fire timer =>
    unfold Dandelion.step at h
    dsimp only at h
    split at h
    · next hfires =>
      obtain ⟨rfl, rfl⟩ := Prod.mk.inj (Option.some.inj h)
      refine ⟨⟨hc.seen, fun t ht => hc.guards t (List.mem_of_mem_filter ht), List.forall_mem_cons.mpr
        ⟨hc.guards timer hfires, hc.running⟩, fun k t hk => ?_, fun hopen y hy => ?_⟩, fun y => ?_⟩
      · rcases hc.timers k t hk with ⟨hkey, hpassed, harmed | hthread⟩
        · by_cases hsame : t = timer
          · subst hsame
            exact ⟨hkey, hpassed, .inr List.mem_cons_self⟩
          · exact ⟨hkey, hpassed, .inl (List.mem_filter.mpr ⟨harmed, decide_eq_true hsame⟩)⟩
        · exact ⟨hkey, hpassed, .inr (List.mem_cons_of_mem _ hthread)⟩
      · rcases hc.passed hopen y hy with hm | ht | ⟨t, ht, hrest⟩
        · exact .inl hm
        · exact .inr (.inl ht)
        · exact .inr (.inr ⟨t, List.mem_cons_of_mem _ ht, hrest⟩)
      · rw [pending_cons, if_neg (by simp [Stage.fluffs])]
        exact hb y
    · cases h
  | run i choice =>
    unfold Dandelion.step at h
    dsimp only at h
    split at h
    · cases h
    · next thread hi =>
      obtain ⟨rfl, rfl⟩ := Prod.mk.inj (Option.some.inj h)
      rcases List.getElem?_eq_some_iff.mp hi with ⟨hlt, rfl⟩
      have hperm : threads.Perm (threads[i] :: threads.eraseIdx i) := (List.getElem_cons_eraseIdx_perm hlt).symm
      refine ⟨(hc.perm hperm).runSection choice, Balanced.runSection (fun y => ?_) choice⟩
      rw [hb y]
      unfold pending
      rw [hperm.countP_eq]
  | close =>
    obtain ⟨rfl, rfl⟩ := Prod.mk.inj (Option.some.inj h)
    refine ⟨⟨hc.seen, fun t ht => hc.guards t (List.mem_of_mem_filter ht), hc.running, fun k t hk => ?_,
      fun hopen => Bool.noConfusion hopen⟩, hb⟩
    cases hk.symm.trans Std.ExtTreeMap.getElem?_empty

theorem Reachable.invariants (h : Reachable key d threads) : Covered key d threads ∧ Balanced d threads := by
  induction h with
  | init =>
    refine ⟨⟨fun k hk => ?_, nofun, nofun, fun k t hk => ?_, fun _ => nofun⟩, fun _ => rfl⟩
    · cases hk.symm.trans Std.ExtTreeMap.getElem?_empty
    · cases hk.symm.trans Std.ExtTreeMap.getElem?_empty
  | step e _ hstep ih => exact keeps_step ih.1 ih.2 hstep

variable (key) in
/-- A timer that fires on an unmarked key of an open router hands its item to the fluff function. -/
theorem fire_fluffs {timer : Timer ι} (hopen : d.router.closed = false)
    (hseen : d.router.seen[key timer.item]? ≠ some ()) (harmed : timer ∈ d.armed) :
    ∃ d', run key [.fire timer, .run 0 false, .run 0 false] (d, threads) = some (d', threads) ∧
      d'.fluffed = timer.item :: d.fluffed := by
  let d₁ := { d with armed := d.armed.filter fun t => t ≠ timer }
  let d₂ := { d₁ with router := { d.router with timers := d.router.timers.erase (key timer.item) } }.mark
    (some timer.item) (key timer.item)
  have hfire : step key (.fire timer) (d, threads) = some (d₁, ⟨timer.item, .callback⟩ :: threads) := if_pos harmed
  have hcallback : d₁.fireFailsafe key timer.item = (d₂, [⟨timer.item, .fluff⟩]) := by
    unfold fireFailsafe
    dsimp only
    rw [if_neg (by simp [d₁, hopen]), if_neg hseen]
  have hmark : step key (.run 0 false) (d₁, ⟨timer.item, .callback⟩ :: threads) =
      some (d₂, ⟨timer.item, .fluff⟩ :: threads) :=
    congrArg (fun r : Dandelion ι × List (Thread ι) => some (r.1, r.2 ++ threads)) hcallback
  refine ⟨{ d₂ with fluffed := timer.item :: d₂.fluffed }, ?_, rfl⟩
  rw [run, List.foldlM_cons, hfire, Option.bind_eq_bind, Option.bind_some, List.foldlM_cons, hmark]
  rfl

/-- **Items of distinct keys are never lost.** In every state of an open router that was never passed two items of one
key: an item passed in, with no call and no timer callback on it in progress, was marked seen, or its timer is armed and
its firing fluffs it; and, whatever the keys, the markings of the router itself are the fluff calls made and about to be
made. -/
theorem never_lost (h : Reachable key d threads) (hopen : d.router.closed = false) :
    (Set.InjOn key {x | x ∈ d.passed} → ∀ x ∈ d.passed, (∀ t ∈ threads, t.item = x → t.stage = .spawned) →
      key x ∈ d.marked ∨ ∃ timer, d.router.timers[key x]? = some timer ∧ timer ∈ d.armed ∧
        ∃ d', run key [.fire timer, .run 0 false, .run 0 false] (d, threads) = some (d', threads) ∧
          d'.fluffed = x :: d.fluffed) ∧
    ∀ x, d.own.count x = d.fluffed.count x + pending x threads := by
  rcases h.invariants with ⟨hc, hb⟩
  refine ⟨fun hinj x hx hidle => ?_, hb⟩
  by_cases hmarked : key x ∈ d.marked
  · exact .inl hmarked
  · rcases hc.passed hopen x hx with hm | ht | ⟨t, ht, hthread, hundecided⟩
    · exact .inl hm
    · rcases Option.isSome_iff_exists.mp ht with ⟨timer, htimer⟩
      rcases hc.timers _ timer htimer with ⟨hkey, hpassed, hfires⟩
      obtain rfl : timer.item = x := hinj hpassed hx hkey
      rcases hfires with harmed | hcallback
      · have hseen : d.router.seen[key timer.item]? ≠ some () := fun hseen => hmarked (hc.seen _ hseen)
        exact .inr ⟨timer, htimer, harmed, fire_fluffs key hopen hseen harmed⟩
      · cases hidle _ hcallback rfl
    · rw [hidle t ht (hinj (hc.running t ht) hx hthread)] at hundecided
      cases hundecided

theorem Reachable.run {d' : Dandelion ι} {threads' : List (Thread ι)} (h : Reachable key d threads)
    {events : List (Event ι)} (hrun : Dandelion.run key events (d, threads) = some (d', threads')) :
    Reachable key d' threads' := by
  induction events generalizing d threads with
  | nil =>
    obtain ⟨rfl, rfl⟩ := Prod.mk.inj (Option.some.inj hrun)
    exact h
  | cons e events ih =>
    rw [Dandelion.run, List.foldlM_cons] at hrun
    rcases Option.bind_eq_some_iff.mp hrun with ⟨⟨d₁, threads₁⟩, hstep, hrun⟩
    exact ih (h.step e hstep) hrun

end Router

/-- A digest that keeps the first bytes. -/
def firstBytes (b : Bytes) : Bytes32 := copy32 b

/-- A commitment under a given signature. -/
def handStem (fee : Nat) (sign : Bytes) : StemItem := .commit ⟨ZERONET, 1, [], fee, some sign⟩

/-- Two submissions that were stemmed: their calls have returned, none is marked, and the timer of each is armed. -/
theorem never_lost_stemmed :
    letI := Crypto.ofHash firstBytes
    ∃ d : Dandelion StemItem, Reachable StemItem.key d [] ∧ d.passed = [handStem 6 [1], handStem 5 [1]] ∧ d.marked = [] ∧
      ∀ x ∈ d.passed, ∃ timer, d.router.timers[x.key]? = some timer ∧ timer ∈ d.armed ∧ ∃ d',
        run StemItem.key [.fire timer, .run 0 false, .run 0 false] (d, []) = some (d', []) ∧ d'.fluffed = [x] := by
  let _ := Crypto.ofHash firstBytes
  have hrun : (run StemItem.key [.originate (handStem 5 [1]), .run 0 true, .run 0 false, .run 0 true,
      .originate (handStem 6 [1]), .run 0 true, .run 0 false, .run 0 true] (init, [])).any (fun s => s.2 = [] ∧
        s.1.router.closed = false ∧ s.1.passed = [handStem 6 [1], handStem 5 [1]] ∧ s.1.marked = [] ∧
          s.1.fluffed = []) = true := by
    decide +kernel
  rcases (Option.any_eq_true _ _).mp hrun with ⟨⟨d, threads⟩, hs, htest⟩
  rcases of_decide_eq_true htest with ⟨rfl, hopen, hpassed, hmarked, hfluffed⟩
  have hr := Reachable.init.run hs
  refine ⟨d, hr, hpassed, hmarked, fun x hx => ?_⟩
  have hinj : Set.InjOn StemItem.key {x | x ∈ d.passed} := by
    rw [hpassed]
    have hapart : ∀ x ∈ [handStem 6 [1], handStem 5 [1]], ∀ y ∈ [handStem 6 [1], handStem 5 [1]],
        x.key = y.key → x = y := by decide +kernel
    exact fun x hx y hy => hapart x hx y hy
  rcases (never_lost hr hopen).1 hinj x hx nofun with hm | hguarded
  · rw [hmarked] at hm
    cases hm
  · rw [hfluffed] at hguarded
    exact hguarded

/-- **The second of two items of one key is lost**: two commitments that differ in their signature are stemmed one after
the other and no call is in progress; neither is marked, the one armed timer is that of the first, and after its firing
the first has been fluffed, the second has not, and no timer is left. -/
theorem second_lost :
    letI := Crypto.ofHash firstBytes
    ∃ d d' : Dandelion StemItem, Reachable StemItem.key d [] ∧ d.router.closed = false ∧
      d.passed = [handStem 5 [2], handStem 5 [1]] ∧ d.marked = [] ∧ d.armed = [⟨0, handStem 5 [1]⟩] ∧
      run StemItem.key [.fire ⟨0, handStem 5 [1]⟩, .run 0 false, .run 0 false] (d, []) = some (d', []) ∧
      d'.fluffed = [handStem 5 [1]] ∧ d'.armed = [] := by
  let _ := Crypto.ofHash firstBytes
  have hrun : (run StemItem.key [.originate (handStem 5 [1]), .run 0 true, .run 0 false, .run 0 true,
      .originate (handStem 5 [2]), .run 0 true, .run 0 false, .run 0 true] (init, [])).any (fun s => (s.2 = [] ∧
        s.1.router.closed = false ∧ s.1.passed = [handStem 5 [2], handStem 5 [1]] ∧ s.1.marked = [] ∧
        s.1.armed = [⟨0, handStem 5 [1]⟩]) ∧
        (run StemItem.key [.fire ⟨0, handStem 5 [1]⟩, .run 0 false, .run 0 false] s).any (fun s' => s'.2 = [] ∧
          s'.1.fluffed = [handStem 5 [1]] ∧ s'.1.armed = []) = true) = true := by
    decide +kernel
  rcases (Option.any_eq_true _ _).mp hrun with ⟨⟨d, threads⟩, hs, htest⟩
  rcases of_decide_eq_true htest with ⟨⟨rfl, hopen, hpassed, hmarked, harmed⟩, hfire⟩
  rcases (Option.any_eq_true _ _).mp hfire with ⟨⟨d', threads'⟩, hs', htest'⟩
  rcases of_decide_eq_true htest' with ⟨rfl, hends⟩
  exact ⟨d, d', Reachable.init.run hs, hopen, hpassed, hmarked, harmed, hs', hends⟩

end Dandelion
end NgCore
