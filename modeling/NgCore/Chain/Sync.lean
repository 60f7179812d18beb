/-
# NgCore.Chain.Sync — the download loops of the sync module

`fetchRemoteRange` (`consensus/sync_snapshot.go`) and `doSync` (`consensus/sync_normal.go`). Both loop until a height
is reached, and both take their progress from the remote: `fetchRemoteRange` asks on above the last height of a reply,
whatever that height is, and `doSync` asks again as long as every block of a reply was accepted — `ApplyBlock` also
accepts a block beside the chain, and a switch to a heavier branch may lower the tip.

A peer is a function from the number of the request and the request to the reply, so every behaviour is one. With
enough fuel the loops end, within the bounds their heights give, when the replies to the requests that are made keep
to the range asked for (`Within`) and hang on the tip (`Continues`); `sync_spins` is a peer of each kind that keeps them
going for ever. `fetchRemoteRange` allocates the whole range first, and a range that no slice can hold is a panic.

DELIVERABLE: `sync_terminates`.
-/
import NgCore.Chain.Converge

namespace NgCore

/-! ## §1 — the loops -/

/-- What ends a download early: the request failed or was rejected, a range came back empty, a block was refused, or
the runtime refused to make the slice. -/
inductive SyncErr where
  | remote
  | noBlocks
  | apply (e : Err)
  | panic
  deriving DecidableEq

/-- The last height of the round that starts at `cur`. -/
def roundTo (cur last : Nat) : Nat := min ((cur + maxBlocks - 1) % 2 ^ 64) last

/-- The loop of `fetchRemoteRange`, in 64 bits: the next height asked for, and the blocks so far. Fuel bounds the
requests; `none` when it runs out. -/
def fetchLoop (peer : Nat → (cur roundTo : Nat) → Except SyncErr (List FullBlock)) (last : Nat) :
    (fuel k cur : Nat) → List FullBlock → Option (Nat × Except SyncErr (List FullBlock))
  | 0, k, cur, blocks => if cur ≤ last then none else some (k, .ok blocks)
  | fuel + 1, k, cur, blocks =>
    if cur ≤ last then
      match peer k cur (roundTo cur last) with
      | .error e => some (k + 1, .error e)
      | .ok round =>
        match round.getLast? with
        | none => some (k + 1, .error .noBlocks)
        | some b => fetchLoop peer last fuel (k + 1) ((b.getHeight + 1) % 2 ^ 64) (blocks ++ round)
    else some (k, .ok blocks)

/-- **`fetchRemoteRange`** — with the number of requests made, where `room` is the capacity of the largest slice of
blocks that the runtime makes. -/
def fetchRemoteRange (room : Nat) (peer : Nat → (cur roundTo : Nat) → Except SyncErr (List FullBlock))
    (first last fuel : Nat) : Option (Nat × Except SyncErr (List FullBlock)) :=
  if room < (last + 2 ^ 64 - first + 1) % 2 ^ 64 then some (0, .error .panic)
  else fetchLoop peer last fuel 0 first []

/-- **`Fetches peer first last k cur`** — request `k` of the loop is for the heights from `cur` on. -/
inductive Fetches (peer : Nat → (cur roundTo : Nat) → Except SyncErr (List FullBlock)) (first last : Nat) :
    Nat → Nat → Prop
  | start : Fetches peer first last 0 first
  | next {k cur : Nat} {round : List FullBlock} {b : FullBlock} : Fetches peer first last k cur → cur ≤ last →
      peer k cur (roundTo cur last) = .ok round → round.getLast? = some b →
      Fetches peer first last (k + 1) ((b.getHeight + 1) % 2 ^ 64)

section Loop

variable [Crypto] {S : Type} (L : Ledger S)

/-- The blocks of one reply, one `ApplyBlock` each: what was applied before a refusal stays. -/
def applyReply (clock : Nat → Nat) : (i : Nat) → List FullBlock → Node S → Except SyncErr Unit × Node S
  | _, [], n => (.ok (), n)
  | i, block :: chain, n =>
    match n.applyBlock L (clock i) block with
    | .error e => (.error (.apply e), n)
    | .ok n' => applyReply clock (i + 1) chain n'

/-- **`doSync`** — the loop from iteration `k` on, with the number of iterations, the result and the node it leaves.
The lock around it is left out. -/
def doSync (peer : Nat → Bytes → Except SyncErr (List FullBlock)) (clock : Nat → Nat → Nat) (latest : Nat) :
    (fuel k : Nat) → Node S → Option (Nat × Except SyncErr Unit × Node S)
  | 0, k, n => if n.store.latestHeight < latest then none else some (k, .ok (), n)
  | fuel + 1, k, n =>
    if n.store.latestHeight < latest then
      match peer k n.store.latestHash with
      | .error e => some (k + 1, .error e, n)
      | .ok chain =>
        -- an empty reply means the remote cannot extend our tip
        if chain = [] then some (k + 1, .ok (), n)
        else
          match applyReply L (clock k) 0 chain n with
          | (.error e, n') => some (k + 1, .error e, n')
          | (.ok _, n') => doSync peer clock latest fuel (k + 1) n'
    else some (k, .ok (), n)

/-- **`Syncs … n k m`** — iteration `k` of the loop on `n` starts at `m`. -/
inductive Syncs (peer : Nat → Bytes → Except SyncErr (List FullBlock)) (clock : Nat → Nat → Nat) (latest : Nat)
    (n : Node S) : Nat → Node S → Prop
  | start : Syncs peer clock latest n 0 n
  | next {k : Nat} {m m' : Node S} {chain : List FullBlock} : Syncs peer clock latest n k m →
      m.store.latestHeight < latest → peer k m.store.latestHash = .ok chain → chain ≠ [] →
      applyReply L (clock k) 0 chain m = (.ok (), m') → Syncs peer clock latest n (k + 1) m'

end Loop

/-! ## §2 — replies that keep to the request -/

/-- The blocks of a range reply have the heights from `cur` up, none above `roundTo`. -/
def Within (cur roundTo : Nat) (round : List FullBlock) : Prop :=
  round.map FullBlock.getHeight = List.range' cur round.length ∧ ∀ b ∈ round, b.getHeight ≤ roundTo

/-- **`Continues hash height chain`** — the blocks hang on the block of that hash and height, one above the other. -/
def Continues [Crypto] : (hash : Bytes) → (height : Nat) → List FullBlock → Prop
  | _, _, [] => True
  | hash, height, b :: chain =>
    b.getPrevHash = hash ∧ b.getHeight = height + 1 ∧ Continues b.getHash.val b.getHeight chain

/-- **A fetch of a range** ends within a request for every height, with an error or the heights of the range. -/
theorem fetchLoop_within {peer : Nat → Nat → Nat → Except SyncErr (List FullBlock)} {first last : Nat}
    (hpeer : ∀ k cur round, Fetches peer first last k cur → cur ≤ last → peer k cur (roundTo cur last) = .ok round →
      Within cur (roundTo cur last) round)
    (hlast : last + 1 < 2 ^ 64) (fuel k cur : Nat) (blocks : List FullBlock) (hk : Fetches peer first last k cur)
    (hcur : cur ≤ last + 1) (hfuel : last + 1 - cur ≤ fuel) :
    ∃ requests result, requests ≤ k + (last + 1 - cur) ∧
      fetchLoop peer last fuel k cur blocks = some (requests, result) ∧
      ∀ all, result = .ok all →
        all.map FullBlock.getHeight = blocks.map FullBlock.getHeight ++ List.range' cur (last + 1 - cur) := by
  induction fuel generalizing k cur blocks with
  | zero =>
    obtain rfl : cur = last + 1 := by omega
    rw [fetchLoop, if_neg (by omega)]
    exact ⟨k, _, by omega, rfl, fun all hall => by simp [← Except.ok.inj hall]⟩
  | succ fuel ih =>
    rw [fetchLoop]
    by_cases hle : cur ≤ last
    · rw [if_pos hle]
      cases hreply : peer k cur (roundTo cur last) with
      | error e => exact ⟨k + 1, _, by omega, rfl, fun all hall => by cases hall⟩
      | ok round =>
        rcases hpeer k cur round hk hle hreply with ⟨hheights, hbound⟩
        rcases List.eq_nil_or_concat' round with rfl | ⟨init, b, rfl⟩
        · exact ⟨k + 1, _, by omega, rfl, fun all hall => by cases hall⟩
        · -- the last block of the round has the height the round ends at
          rw [List.length_append, List.length_singleton] at hheights
          have hlastHeight : b.getHeight = cur + init.length := by
            have hends := hheights
            rw [List.map_append, List.range'_concat, Nat.one_mul] at hends
            exact List.head_eq_of_cons_eq (List.append_inj_right' hends rfl)
          have hround : cur + init.length ≤ last :=
            hlastHeight ▸ (hbound b (by simp)).trans (min_le_right _ _)
          have hnext := hk.next hle hreply (List.getLast?_concat ..)
          dsimp only
          rw [List.getLast?_concat]
          dsimp only
          rw [hlastHeight, Nat.mod_eq_of_lt (by omega)] at hnext ⊢
          rcases ih (k + 1) (cur + (init.length + 1)) (blocks ++ (init ++ [b])) hnext (by omega) (by omega) with
            ⟨requests, result, hle', hloop, hall⟩
          refine ⟨requests, result, by omega, hloop, fun all hok => ?_⟩
          have hsplit : last + 1 - cur = (init.length + 1) + (last + 1 - (cur + (init.length + 1))) := by omega
          rw [hall all hok, List.map_append, hheights, hsplit, List.append_assoc, List.range'_append_1]
    · obtain rfl : cur = last + 1 := by omega
      rw [if_neg hle]
      exact ⟨k, _, by omega, rfl, fun all hall => by simp [← Except.ok.inj hall]⟩

section Tips

variable [Crypto] {S : Type} {L : Ledger S}

omit [Crypto] in
theorem maintain_latest (L : Ledger S) (b : FullBlock) (s : BlockStore) :
    (L.maintain b s).latestHeight = s.latestHeight ∧ (L.maintain b s).latestHash = s.latestHash := by
  unfold Ledger.maintain
  split
  · rcases BlockStore.dropSideBlocks_eq _ _ with ⟨_, _, _, heq⟩
    unfold BlockStore.pruneSideBlocks
    rw [heq]
    split <;> exact ⟨rfl, rfl⟩
  · exact ⟨rfl, rfl⟩

theorem Node.extendTip_latest {now : Nat} {block : FullBlock} {n n' : Node S}
    (h : n.extendTip L now block = .ok n') :
    n'.store.latestHeight = block.getHeight ∧ n'.store.latestHash = block.getHash.val := by
  rcases Node.extendTip_eq_ok h with ⟨-, store, work, store', hput, hwork, -, hstore⟩
  rcases bind_eq_ok.mp hput with ⟨_, -, hput⟩
  obtain rfl := pure_eq_ok.mp hput
  rcases BlockStore.cumulativeWork_reindexed hwork with ⟨_, _, _, _, rfl⟩
  rw [hstore]
  exact maintain_latest L block _

/-- **A reply that continues the tip raises it by its length.** -/
theorem applyReply_raises {clock : Nat → Nat} {chain : List FullBlock} {i : Nat} {n n' : Node S}
    (hchain : Continues n.store.latestHash n.store.latestHeight chain)
    (h : applyReply L clock i chain n = (.ok (), n')) :
    n'.store.latestHeight = n.store.latestHeight + chain.length := by
  induction chain generalizing i n with
  | nil =>
    obtain rfl := (Prod.mk.inj h).2
    rfl
  | cons b chain ih =>
    rcases hchain with ⟨hprev, hheight, hrest⟩
    rw [applyReply] at h
    unfold Node.applyBlock at h
    rw [if_pos hprev] at h
    cases happly : n.extendTip L (clock i) b with
    | error e => rw [happly] at h; cases h
    | ok m =>
      rw [happly] at h
      rcases Node.extendTip_latest happly with ⟨hm, hhash⟩
      rw [← hm, ← hhash] at hrest
      rw [ih hrest h, hm, hheight, List.length_cons]
      omega

variable {peer : Nat → Bytes → Except SyncErr (List FullBlock)} {clock : Nat → Nat → Nat} {latest : Nat} {n : Node S}

/-- **Replies that continue the tip end the loop**, after an iteration for every height at most. -/
theorem doSync_ends
    (hreplies : ∀ k m chain, Syncs L peer clock latest n k m → peer k m.store.latestHash = .ok chain →
      Continues m.store.latestHash m.store.latestHeight chain) {fuel k : Nat} {m : Node S}
    (hm : Syncs L peer clock latest n k m) (hfuel : latest - m.store.latestHeight ≤ fuel) :
    ∃ iterations result m', iterations ≤ k + (latest - m.store.latestHeight) ∧
      doSync L peer clock latest fuel k m = some (iterations, result, m') := by
  induction fuel generalizing k m with
  | zero =>
    rw [doSync, if_neg (by omega)]
    exact ⟨k, _, _, by omega, rfl⟩
  | succ fuel ih =>
    rw [doSync]
    by_cases hlt : m.store.latestHeight < latest
    · rw [if_pos hlt]
      cases hreply : peer k m.store.latestHash with
      | error e => exact ⟨k + 1, _, _, by omega, rfl⟩
      | ok chain =>
        dsimp only
        by_cases hnil : chain = []
        · rw [if_pos hnil]
          exact ⟨k + 1, _, _, by omega, rfl⟩
        · rw [if_neg hnil]
          rcases happly : applyReply L (clock k) 0 chain m with ⟨e | _, m'⟩
          · exact ⟨k + 1, _, _, by omega, rfl⟩
          · have hraise := applyReply_raises (hreplies k m chain hm hreply) happly
            have hpos := List.length_pos_iff.mpr hnil
            rcases ih (hm.next hlt hreply hnil happly) (by omega) with ⟨iterations, result, m'', hle, hrun⟩
            exact ⟨iterations, result, m'', by omega, hrun⟩
    · rw [if_neg hlt]
      exact ⟨k, _, _, by omega, rfl⟩

end Tips

/-- **The sync loops end on replies that keep to their requests.** A range is fetched with a request for every height
at most, and what comes back has the heights of the range; every iteration of `doSync` that goes on has raised the tip,
so that it ends after an iteration for every height at most. -/
theorem sync_terminates [Crypto] {S : Type} {L : Ledger S}
    {ranges : Nat → Nat → Nat → Except SyncErr (List FullBlock)} {room first last : Nat}
    {peer : Nat → Bytes → Except SyncErr (List FullBlock)} {clock : Nat → Nat → Nat} {latest : Nat} {n : Node S}
    (hfirst : first ≤ last) (hlast : last + 1 < 2 ^ 64) (hroom : last - first + 1 ≤ room)
    (hranges : ∀ k cur round, Fetches ranges first last k cur → cur ≤ last →
      ranges k cur (roundTo cur last) = .ok round → Within cur (roundTo cur last) round)
    (hreplies : ∀ k m chain, Syncs L peer clock latest n k m → peer k m.store.latestHash = .ok chain →
      Continues m.store.latestHash m.store.latestHeight chain) :
    (∃ requests result, requests ≤ last - first + 1 ∧
      fetchRemoteRange room ranges first last (last - first + 1) = some (requests, result) ∧
      ∀ blocks, result = .ok blocks → blocks.map FullBlock.getHeight = List.range' first (last - first + 1)) ∧
    (∀ k m chain m', Syncs L peer clock latest n k m → peer k m.store.latestHash = .ok chain → chain ≠ [] →
      applyReply L (clock k) 0 chain m = (.ok (), m') → m.store.latestHeight < m'.store.latestHeight) ∧
    ∃ iterations result m', iterations ≤ latest - n.store.latestHeight ∧
      doSync L peer clock latest (latest - n.store.latestHeight) 0 n = some (iterations, result, m') := by
  refine ⟨?_, ?_, ?_⟩
  · have hcount : last + 1 - first = last - first + 1 := by omega
    have hmade : ¬ room < (last + 2 ^ 64 - first + 1) % 2 ^ 64 := by omega
    rcases fetchLoop_within hranges hlast (last - first + 1) 0 first [] .start (by omega) (by omega) with
      ⟨requests, result, hle, hrun, hall⟩
    rw [hcount] at hle hall
    refine ⟨requests, result, by omega, ?_, hall⟩
    rw [fetchRemoteRange, if_neg hmade, hrun]
  · intro k m chain m' hm hreply hnil happly
    rw [applyReply_raises (hreplies k m chain hm hreply) happly]
    have := List.length_pos_iff.mpr hnil
    omega
  · rcases doSync_ends hreplies .start le_rfl with ⟨iterations, result, m', hle, hrun⟩
    exact ⟨iterations, result, m', by omega, hrun⟩

/-! ## §3 — peers, by hand -/

/-- A peer that answers the first two requests with one block of the height asked for, and any other with the genesis
block. -/
def handRanges [Crypto] (k cur _ : Nat) : Except SyncErr (List FullBlock) :=
  .ok (if k < 2 then [{ handGenesis with header := { handGenesis.header with height := cur } }] else [handGenesis])

/-- A peer with one block above genesis. -/
def handPeer [Crypto] (k : Nat) (_ : Bytes) : Except SyncErr (List FullBlock) :=
  .ok (if k = 0 then [handSeal handGenesis 1 [] []] else [])

theorem sync_terminates_handPeer :
    letI := Engine.bare
    (∃ requests result, requests ≤ 2 ∧ fetchRemoteRange 2 handRanges 1 2 2 = some (requests, result) ∧
      ∀ blocks, result = .ok blocks → blocks.map FullBlock.getHeight = List.range' 1 2) ∧
    ∃ iterations result m', iterations ≤ 2 - (handNode false).store.latestHeight ∧
      doSync (ledger ⟨ZERONET, false⟩) handPeer (fun _ _ => handNow) 2 (2 - (handNode false).store.latestHeight) 0
        (handNode false) = some (iterations, result, m') := by
  let _ := Engine.bare
  have hranges : ∀ k cur round, Fetches handRanges 1 2 k cur → cur ≤ 2 → handRanges k cur (roundTo cur 2) = .ok round →
      Within cur (roundTo cur 2) round := by
    intro k cur round hk hcur hround
    -- the third request would be for height 3, and is not made
    have hcount : cur = k + 1 := by
      clear hround
      induction hk with
      | start => rfl
      | @next k cur round b _ hle hreply hb ih =>
        obtain rfl := Except.ok.inj hreply
        rw [if_pos (by omega)] at hb
        have hb : b.getHeight = cur := (congrArg FullBlock.getHeight (Option.some.inj hb)).symm
        omega
    obtain rfl := Except.ok.inj hround
    have hto : cur ≤ roundTo cur 2 := by
      unfold roundTo maxBlocks
      omega
    rw [if_pos (by omega)]
    exact ⟨rfl, fun b hb => List.mem_singleton.mp hb ▸ hto⟩
  have hreplies : ∀ k m chain, Syncs (ledger ⟨ZERONET, false⟩) handPeer (fun _ _ => handNow) 2 (handNode false) k m →
      handPeer k m.store.latestHash = .ok chain → Continues m.store.latestHash m.store.latestHeight chain := by
    intro k m chain hm hchain
    obtain rfl := Except.ok.inj hchain
    cases hm with
    | start => exact ⟨by decide +kernel, by decide +kernel, trivial⟩
    | next _ _ _ _ _ => exact trivial
  have hfirst : 1 ≤ 2 := by decide
  have hlast : 2 + 1 < 2 ^ 64 := by decide
  rcases sync_terminates hfirst hlast le_rfl hranges hreplies with ⟨hfetch, -, hsync⟩
  exact ⟨hfetch, hsync⟩

deriving instance DecidableEq for BlockStore

/-- Importing the block changes nothing: it is stored beside the chain already, and the chain is heavier. -/
def staysPut [Crypto] {S : Type} (block : FullBlock) (n : Node S) : Bool :=
  decide (block.getPrevHash ≠ n.store.latestHash) && okAnd (Node.sideParent block n.store) fun prev =>
    okAnd (checkBranchBlock handNow n.store.getBlockByHash block prev) fun _ =>
      okAnd ((n.store.putSideBlock block).cumulativeWork block) fun r =>
        okAnd r.2.getLatestBlock fun tip => okAnd (r.2.cumulativeWork tip) fun r' =>
          decide (¬ BlockStore.Beats r.1 block.getHash r'.1 tip.getHash) && decide (r'.2 = n.store)

theorem applyBlock_of_staysPut [Crypto] {S : Type} {L : Ledger S} {block : FullBlock} {n : Node S}
    (h : staysPut block n = true) : n.applyBlock L handNow block = .ok n := by
  rcases Bool.and_eq_true_iff.mp h with ⟨hprev, h⟩
  rcases exists_of_okAnd h with ⟨prev, hparent, h⟩
  rcases exists_of_okAnd h with ⟨_, hcheck, h⟩
  rcases exists_of_okAnd h with ⟨⟨work, store⟩, hwork, h⟩
  rcases exists_of_okAnd h with ⟨tip, htip, h⟩
  rcases exists_of_okAnd h with ⟨⟨tipWork, store'⟩, htipWork, h⟩
  rcases Bool.and_eq_true_iff.mp h with ⟨hbeats, hsame⟩
  obtain rfl := of_decide_eq_true hsame
  unfold Node.applyBlock Node.importSide
  rw [if_neg (of_decide_eq_true hprev), hparent]
  simp only [bind, Except.bind, hcheck, hwork, htip, htipWork, if_neg (of_decide_eq_true hbeats), pure, Except.pure]

/-- **Both loops can spin for ever**: a node at height 2 is answered with its own first block and accepts it again and
again; a fetch of the heights 1 and 2, for which there is room, is answered with the genesis block, and asks for height 1
again and again. -/
theorem sync_spins :
    letI := Engine.bare
    (∃ n : Node State, Node.Reachable ⟨ZERONET, false⟩
        {x | x ∈ (handChain 1 2 handGenesis ++ handChain 1 1 handGenesis).map FullBlock.header} n ∧
      n.store.latestHeight = 2 ∧
      ∀ fuel, doSync (ledger ⟨ZERONET, false⟩) (fun _ _ => .ok (handChain 1 1 handGenesis)) (fun _ _ => handNow) 3 fuel
        0 n = none) ∧
    ∀ room fuel, 2 ≤ room → fetchRemoteRange room (fun _ _ _ => .ok [handGenesis]) 1 2 fuel = none := by
  let _ := Engine.bare
  constructor
  · rcases exists_reachable_byHand (fun _ => none) false (handChain 1 2 handGenesis ++ handChain 1 1 handGenesis) []
      (fun n => decide (n.store.latestHeight = 2) && staysPut (handSeal handGenesis 1 [] []) n) (by decide +kernel) with
      ⟨n, hr, -, htest⟩
    rw [List.append_nil] at hr
    rcases Bool.and_eq_true_iff.mp htest with ⟨htip, hstays⟩
    have htip : n.store.latestHeight = 2 := of_decide_eq_true htip
    refine ⟨n, hr, htip, fun fuel => ?_⟩
    have hspin : ∀ k, doSync (ledger ⟨ZERONET, false⟩) (fun _ _ => .ok (handChain 1 1 handGenesis))
        (fun _ _ => handNow) 3 fuel k n = none := by
      induction fuel with
      | zero =>
        intro k
        rw [doSync, htip]
        rfl
      | succ fuel ih =>
        intro k
        have hreply : applyReply (ledger ⟨ZERONET, false⟩) (fun _ => handNow) 0 (handChain 1 1 handGenesis) n =
            (.ok (), n) := by
          rw [handChain, applyReply, applyBlock_of_staysPut hstays]
          rfl
        rw [doSync, htip, if_pos (by decide)]
        dsimp only
        rw [if_neg (by simp [handChain]), hreply]
        exact ih (k + 1)
    exact hspin 0
  · intro room fuel hroom
    have hspin : ∀ k blocks, fetchLoop (fun _ _ _ => .ok [handGenesis]) 2 fuel k 1 blocks = none := by
      induction fuel with
      | zero =>
        intro k blocks
        rfl
      | succ fuel ih =>
        intro k blocks
        rw [fetchLoop, if_pos (by decide)]
        exact ih (k + 1) _
    rw [fetchRemoteRange, if_neg (by omega)]
    exact hspin 0 []

end NgCore
