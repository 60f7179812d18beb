/-
# NgCore.State.Linkable — when deployed contracts stay linkable

A contract is run with its dependencies linked, each of them with its own: `NewVM` walks the imports down to
`maxDepChainDepth` levels and refuses to come back to the contract it runs. The deploy check (`validateDeps`) looks
at the DIRECT dependencies only — they are live, and not the deployer — and rests on the order of deployment for
the rest: a dependee is there before its dependents. An upgrade replaces dependencies in place, so the order says
nothing any more: two contracts can come to import each other (`upgrade_closes_cycle`), and then neither runs.

What is missing can be kept up by the deployers. A `Blueprint` assigns every account a layer, and an interface its
modules keep offering; while every deployed module imports lower layers only, the graph has no cycles, no chain is
longer than the layers, and every live contract links.

DELIVERABLE: `State.Passes.linkable`.
-/
import NgCore.State.Ledger

namespace NgCore

open Lib (Bucket)

section Linkable

variable [Engine]

/-! ## §1 — blueprints -/

/-- **`Blueprint`** — the code that is deployed, a layer for every account, and what the modules of an account
offer to their importers. -/
structure Blueprint where
  deployed : Bytes → Prop
  layer : Address → Nat
  offers : Address → Module → Prop

namespace Blueprint

variable (B : Blueprint)

/-- **`Fits B a m`** — as a module of `a`, `m` runs nothing when it is linked, offers what `a` promised, imports
lower layers only, and links against any modules that offer what was promised. -/
structure Fits (a : Address) (m : Module) : Prop where
  start : m.start = none
  offers : B.offers a m
  exports : (m.exports.any fun e => e.2.isSome) = true
  layer : B.layer a ≤ maxDepChainDepth
  lower : ∀ names name d, parseContractDeps m = .ok names → name ∈ names → newAddressFromBS58 name = some d →
    B.layer d < B.layer a
  resolves : ∀ names, parseContractDeps m = .ok names → ∀ linked : List (String × Module),
    (∀ name ∈ names, ∃ d m', newAddressFromBS58 name = some d ∧ linked.lookup name = some m' ∧ B.offers d m') →
    Engine.resolves m linked = true

/-- **`Permits B tx`** — a deploy brings code that fits its sender. -/
def Permits (tx : FullTx) : Prop :=
  tx.type = deployTx → ∀ a source, tx.fromAddr = .ok a → source ≠ [] →
    decodeCommitCode Engine.inflate tx.extra = .ok source →
    B.deployed source ∧ ∀ m, loadContractWasm source = some m → B.Fits a m

/-- What a slot of the ledger records: the hash and the dependencies of deployed code that fits. -/
def Recorded (a : Address) (codeHash : Bytes32) (deps : List Address) : Prop :=
  ∃ source m, hash256 source = codeHash ∧ B.deployed source ∧ loadContractWasm source = some m ∧ B.Fits a m ∧
    extractContractDeps source = .ok deps

variable {B}

theorem Permits.abides {tx : FullTx} (h : B.Permits tx) :
    tx.Abides (fun c => B.deployed c ∧ c ≠ []) B.Recorded := by
  intro htype a source m deps hfrom hne hsource hload hextract
  obtain ⟨hdeployed, hfits⟩ := h htype a source hfrom hne hsource
  exact ⟨⟨hdeployed, hne⟩, source, m, rfl, hdeployed, hload, hfits m hload, hextract⟩

end Blueprint

/-! ## §2 — what linking relies on -/

/-- **`Built B v a account m`** — the contract of `a` loads as `m`, which fits, and its dependencies are there. -/
structure Built (B : Blueprint) (v : View) (a : Address) (account : Contract) (m : Module) : Prop where
  owner : account.owner = a
  live : account.isLive = true
  loads : loadContractWasm account.source = some m
  fits : B.Fits a m
  names : ∃ names, parseContractDeps m = .ok names ∧
    ∀ name ∈ names, ∃ d account', newAddressFromBS58 name = some d ∧ v.contract d = some account'

/-- **`Blueprint.Holds B v`** — every contract of the view is built to the blueprint. -/
def Blueprint.Holds (B : Blueprint) (v : View) : Prop :=
  ∀ a account, v.contract a = some account → ∃ m, Built B v a account m

/-- The linked modules offer what was promised for their names. -/
def Blueprint.Links (B : Blueprint) (vm : VM) : Prop :=
  ∀ name l, vm.linker.lookup name = some l → ∃ d, newAddressFromBS58 name = some d ∧ B.offers d l.module

/-- **`VM.Extends vm vm'`** — linking went on: the same run, and no linked name is lost. -/
structure VM.Extends (vm vm' : VM) : Prop where
  self : vm'.self = vm.self
  kept : ∀ name, vm.linker.lookup name ≠ none → vm'.linker.lookup name ≠ none

omit [Engine] in
theorem VM.Extends.refl (vm : VM) : vm.Extends vm := ⟨rfl, fun _ h => h⟩

omit [Engine] in
theorem VM.Extends.trans {vm vm' vm'' : VM} (h : vm.Extends vm') (h' : vm'.Extends vm'') : vm.Extends vm'' :=
  ⟨h'.self.trans h.self, fun name hname => h'.kept name (h.kept name hname)⟩

/-! ## §3 — linking -/

omit [Engine] in
theorem Host.bind_some {α β : Type} {x : Host α} {f : α → Host β} {vm vm' : VM} {a : α}
    (h : x vm = (some a, vm')) : (x >>= f) vm = f a vm' := by
  show Host.bind x f vm = _
  unfold Host.bind
  rw [h]

omit [Engine] in
theorem Host.require_some {c : Prop} [Decidable c] (hc : c) (vm : VM) : Host.require c vm = (some (), vm) := by
  unfold Host.require
  rw [if_pos hc]
  rfl

omit [Engine] in
/-- Looking a name up in the linked modules, without their instances. -/
theorem lookup_map_module (l : List (String × Linked)) (name : String) :
    (l.map fun e => (e.1, e.2.module)).lookup name = (l.lookup name).map Linked.module := by
  induction l with
  | nil => rfl
  | cons e l ih =>
    rw [List.map_cons, List.lookup_cons, List.lookup_cons, ih]
    cases name == e.1 <;> rfl

/-- **`LinksAll B v hs k m vm`** — with `k` levels left, the dependencies of `m` link: the run goes on with all of
them in the linker, and what was linked before still is. -/
def Blueprint.LinksAll (B : Blueprint) (v : View) (hs : Handlers) (k : Nat) (m : Module) (vm : VM) : Prop :=
  ∃ vm', loadContractDeps v hs k m vm = (some (), vm') ∧ B.Links vm' ∧ vm.Extends vm' ∧
    ∀ names, parseContractDeps m = .ok names → ∀ name ∈ names, vm'.linker.lookup name ≠ none

variable {B : Blueprint} {v : View} {hs : Handlers}

omit [Engine] in
theorem any_linked_iff {vm : VM} {name : String} :
    (vm.linker.any fun e => e.1 = name) = true ↔ vm.linker.lookup name ≠ none := by
  induction vm.linker with
  | nil => simp
  | cons e l ih =>
    rw [List.any_cons, List.lookup_cons]
    by_cases hname : e.1 = name
    · simp [hname]
    · have hne : (name == e.1) = false := beq_eq_false_iff_ne.mpr (Ne.symm hname)
      rw [hne]
      simp [hname, ih]

theorem links_register {vm : VM} (hvm : B.Links vm) {name : String} {d : Address} {m : Module}
    (hname : newAddressFromBS58 name = some d) (hfits : B.Fits d m) (ins : Instance) :
    ∃ vm', VM.register name ⟨d, m, ins⟩ vm = (some (), vm') ∧ B.Links vm' ∧ vm.Extends vm' ∧
      vm'.linker.lookup name ≠ none := by
  refine ⟨{ vm with linker := vm.linker ++ [(name, ⟨d, m, ins⟩)] }, ?_, ?_, ⟨rfl, ?_⟩, ?_⟩
  · unfold VM.register
    rw [if_pos hfits.exports]
    rfl
  · intro name' l hl
    replace hl : (vm.linker ++ [(name, (⟨d, m, ins⟩ : Linked))]).lookup name' = some l := hl
    rw [List.lookup_append] at hl
    cases hold : vm.linker.lookup name' with
    | some l' =>
      rw [hold] at hl
      obtain rfl := Option.some.inj hl
      exact hvm name' l' hold
    | none =>
      rw [hold, Option.none_or, List.lookup_cons] at hl
      cases hsame : name' == name with
      | false =>
        rw [hsame] at hl
        cases hl
      | true =>
        rw [hsame] at hl
        obtain rfl := Option.some.inj hl
        obtain rfl := eq_of_beq hsame
        exact ⟨d, hname, hfits.offers⟩
  · intro name' hkept
    show (vm.linker ++ _).lookup name' ≠ none
    rw [List.lookup_append]
    intro hnone
    exact hkept (Option.or_eq_none_iff.mp hnone).1
  · show (vm.linker ++ _).lookup name ≠ none
    rw [List.lookup_append]
    intro hnone
    have hlast := (Option.or_eq_none_iff.mp hnone).2
    rw [List.lookup_cons_self] at hlast
    cases hlast

/-- One dependency: linked already, or linked now with all it needs. -/
theorem linkServiceDep_some {k : Nat} {vm : VM} {name : String} {d : Address} {account : Contract} {m : Module}
    (hbuilt : Built B v d account m) (hname : newAddressFromBS58 name = some d)
    (hdeps : B.LinksAll v hs k m vm) :
    ∃ vm', linkServiceDep v hs (loadContractDeps v hs k) name account vm = (some (), vm') ∧ B.Links vm' ∧
      vm.Extends vm' ∧ vm'.linker.lookup name ≠ none := by
  obtain ⟨vm₁, hload, hlinks, hextends, hall⟩ := hdeps
  -- nothing runs when the module is instantiated, and its imports resolve
  have hinstantiate : m.instantiate v hs account.owner vm₁ = (some m.fresh, vm₁) := by
    unfold Module.instantiate
    obtain ⟨names, hnames, -⟩ := hbuilt.names
    have hresolves : Engine.resolves m (vm₁.linker.map fun e => (e.1, e.2.module)) = true := by
      apply hbuilt.fits.resolves names hnames
      intro name' hmem
      obtain ⟨l, hl⟩ := Option.ne_none_iff_exists'.mp (hall names hnames name' hmem)
      obtain ⟨d', hd', hoffers⟩ := hlinks name' l hl
      refine ⟨d', l.module, hd', ?_, hoffers⟩
      rw [lookup_map_module, hl]
      rfl
    rw [hresolves, hbuilt.fits.start]
    rfl
  obtain ⟨vm', hregister, hlinks', hextends', hlinked⟩ := links_register hlinks hname hbuilt.fits m.fresh
  refine ⟨vm', ?_, hlinks', hextends.trans hextends', hlinked⟩
  unfold linkServiceDep
  rw [hbuilt.loads]
  refine (Host.bind_some rfl).trans ((Host.bind_some hload).trans ((Host.bind_some hinstantiate).trans ?_))
  rw [hbuilt.owner]
  exact hregister

/-- **Every module that fits links**, level by level down the layers. -/
theorem loadContractDeps_some (hs : Handlers) (hv : B.Holds v) (k : Nat) {a : Address} {account : Contract}
    {m : Module} (hbuilt : Built B v a account m) (hlayer : B.layer a ≤ k) {vm : VM} (hlinks : B.Links vm)
    (hself : B.layer a ≤ B.layer vm.self) : B.LinksAll v hs k m vm := by
  induction k generalizing a account m vm with
  | zero =>
    -- the lowest layer imports nothing
    obtain ⟨names, hnames, hdeps⟩ := hbuilt.names
    have hnil : names = [] := by
      cases names with
      | nil => rfl
      | cons name names =>
        obtain ⟨d, -, hd, -⟩ := hdeps name List.mem_cons_self
        have := hbuilt.fits.lower _ name d hnames List.mem_cons_self hd
        omega
    subst hnil
    refine ⟨vm, ?_, hlinks, .refl vm, fun names' hnames' name hmem => ?_⟩
    · rw [loadContractDeps, hnames]
      exact (Host.bind_some rfl).trans (Host.require_some rfl vm)
    · obtain rfl := Except.ok.inj (hnames.symm.trans hnames')
      cases hmem
  | succ k ih =>
    obtain ⟨names, hnames, hdeps⟩ := hbuilt.names
    have hlower : ∀ name ∈ names, ∀ d, newAddressFromBS58 name = some d → B.layer d < B.layer a :=
      fun name hmem d hd => hbuilt.fits.lower names name d hnames hmem hd
    -- the imports one after the other; what is linked stays linked
    have hloop : ∀ (l : List String), (∀ name ∈ l, name ∈ names) → ∀ vm : VM, B.Links vm →
        B.layer a ≤ B.layer vm.self → ∃ vm',
        (l.forM (linkImport v hs (loadContractDeps v hs k))) vm = (some (), vm') ∧
        B.Links vm' ∧ vm.Extends vm' ∧ ∀ name ∈ l, vm'.linker.lookup name ≠ none := by
      intro l
      induction l with
      | nil => exact fun _ vm hlinks _ => ⟨vm, rfl, hlinks, .refl vm, fun _ h => by cases h⟩
      | cons name l ihl =>
        intro hmem vm hlinks hself
        have hhead := hmem name List.mem_cons_self
        obtain ⟨d, account', hd, hcontract⟩ := hdeps name hhead
        obtain ⟨m', hbuilt'⟩ := hv d account' hcontract
        have hd' := hlower name hhead d hd
        -- the step for this import
        have hstep : ∃ vm₁, linkImport v hs (loadContractDeps v hs k) name vm = (some (), vm₁) ∧
            B.Links vm₁ ∧ vm.Extends vm₁ ∧ vm₁.linker.lookup name ≠ none := by
          by_cases hlinked : (vm.linker.any fun e => e.1 = name) = true
          · refine ⟨vm, ?_, hlinks, .refl vm, any_linked_iff.mp hlinked⟩
            refine (Host.bind_some rfl).trans ?_
            rw [if_pos hlinked]
            rfl
          · have hother : d ≠ vm.self := fun heq => by rw [← heq] at hself; omega
            obtain ⟨vm₁, hlink, hrest⟩ := linkServiceDep_some hbuilt' hd
              (ih hbuilt' (by omega) hlinks (by omega))
            refine ⟨vm₁, ?_, hrest⟩
            refine (Host.bind_some rfl).trans ?_
            rw [if_neg hlinked, hd]
            refine (Host.bind_some rfl).trans ((Host.bind_some (Host.require_some hother vm)).trans ?_)
            rw [hcontract]
            refine (Host.bind_some rfl).trans ((Host.bind_some (Host.require_some hbuilt'.live vm)).trans ?_)
            exact hlink
        obtain ⟨vm₁, hrun, hlinks₁, hextends₁, hname₁⟩ := hstep
        obtain ⟨vm', hrun', hlinks', hextends', hall⟩ :=
          ihl (fun x hx => hmem x (List.mem_cons_of_mem name hx)) vm₁ hlinks₁ (by rw [hextends₁.self]; exact hself)
        refine ⟨vm', ?_, hlinks', hextends₁.trans hextends', fun x hx => ?_⟩
        · exact (Host.bind_some hrun).trans hrun'
        · rcases List.mem_cons.mp hx with rfl | hx
          · exact hextends'.kept x hname₁
          · exact hall x hx
    obtain ⟨vm', hrun, hlinks', hextends, hall⟩ := hloop names (fun _ h => h) vm hlinks hself
    refine ⟨vm', ?_, hlinks', hextends, fun names' hnames' => ?_⟩
    · rw [loadContractDeps, hnames]
      exact (Host.bind_some rfl).trans hrun
    · obtain rfl := Except.ok.inj (hnames.symm.trans hnames')
      exact hall

/-! ## §4 — every state of a run -/

namespace State

/-- The contract at `a` lists `d` among its dependencies. -/
def DependsOn (s : State) (a d : Address) : Prop :=
  ∃ account deps, s.getContract a = some account ∧
    account.getContractDeps Engine.decodeByteStrings = .ok deps ∧ d ∈ deps

instance (s : State) (a d : Address) : Decidable (s.DependsOn a d) :=
  match hacc : s.getContract a with
  | none => isFalse fun ⟨_, _, h, _⟩ => by rw [hacc] at h; cases h
  | some account =>
    match hdeps : account.getContractDeps Engine.decodeByteStrings with
    | .error _ => isFalse fun ⟨account', _, h, h', _⟩ => by
        rw [hacc] at h
        obtain rfl := Option.some.inj h
        rw [hdeps] at h'
        cases h'
    | .ok deps => decidable_of_iff (d ∈ deps) ⟨fun hd => ⟨account, deps, hacc, hdeps, hd⟩, by
        rintro ⟨account', deps', h, h', hd⟩
        rw [hacc] at h
        obtain rfl := Option.some.inj h
        rw [hdeps] at h'
        obtain rfl := Except.ok.inj h'
        exact hd⟩

/-- **`Linkable s`** — no contract depends on itself through others, no chain of dependencies is longer than
allowed, and every contract can be run: its code loads and its dependencies link. -/
structure Linkable (s : State) : Prop where
  acyclic : ∀ a, ¬ Relation.TransGen s.DependsOn a a
  depth : ∀ chain : List Address, chain.IsChain s.DependsOn → chain.length ≤ maxDepChainDepth + 1
  links : ∀ a account, s.getContract a = some account → account.isLive = true → ∃ m,
    loadContractWasm account.source = some m ∧
      ∀ tx blockTime, (newVM s.view account tx blockTime m).1 = some ()

variable {cfg : Config} {n : Nat}

/-- The slots of an exact ledger are built to the blueprint. -/
theorem Ledgered.holds (hinj : ∀ x y, B.deployed x → B.deployed y → hash256 x = hash256 y → x = y) {s : State}
    (h : s.Ledgered cfg (fun c => B.deployed c ∧ c ≠ []) B.Recorded n) {a : Address} {account : Contract}
    (hacc : s.view.contract a = some account) :
    ∃ m, Built B s.view a account m ∧
      ∀ deps, account.getContractDeps Engine.decodeByteStrings = .ok deps → ∀ d ∈ deps, B.layer d < B.layer a := by
  have hlive := h.isLive (fun _ hc => hc.2) hacc
  obtain ⟨sc, hsc, rfl⟩ := view_contract_eq_some hacc
  have hsound := h.sound a sc hsc
  obtain ⟨hhash, hdeployed, -⟩ := h.toGrounded.loadCode hsc
  obtain ⟨source, m, hsource, hdeployed', hload, hfits, hextract⟩ := hsound.allowed
  -- the code that is stored is the code that was deployed
  obtain rfl : s.loadCode sc.codeHash = source := hinj _ _ hdeployed hdeployed' (hhash.trans hsource.symm)
  obtain ⟨-, -, names, hnames, hmem, hback⟩ := extractContractDeps_ok hload hextract
  refine ⟨m, ⟨h.housed.cur a sc hsc, hlive, hload, hfits, names, hnames, ?_⟩, ?_⟩
  · intro name hname
    obtain ⟨d, hd, haddr⟩ := hmem name hname
    obtain ⟨scd, hscd⟩ := Option.ne_none_iff_exists'.mp (h.exact.linked a sc hsc d hd)
    exact ⟨d, _, haddr, view_contract_of_cur hscd⟩
  · intro deps hdeps d hd
    obtain rfl : sc.deps = deps := Except.ok.inj (hsound.decodes.symm.trans hdeps)
    obtain ⟨name, hname, haddr⟩ := hback d hd
    exact hfits.lower names name d hnames hname haddr

theorem dependsOn_lower {s : State}
    (h : ∀ a account, s.getContract a = some account → ∀ deps,
      account.getContractDeps Engine.decodeByteStrings = .ok deps → ∀ d ∈ deps, B.layer d < B.layer a) {a d : Address}
    (hdep : s.DependsOn a d) : B.layer d < B.layer a := by
  obtain ⟨account, deps, hacc, hdeps, hd⟩ := hdep
  exact h a account hacc deps hdeps d hd

/-- **Deployed contracts stay linkable** in every state a run passes, as long as what is deployed keeps to a
blueprint. -/
theorem Passes.linkable (hdecode : DecodesDeps) (B : Blueprint)
    (hinj : ∀ x y, B.deployed x → B.deployed y → hash256 x = hash256 y → x = y) {s : State}
    (h : Passes cfg B.Permits n s) (hn : n < 2 ^ 64) : s.Linkable := by
  have hledgered := h.ledgered hdecode (fun _ hc => hc.2) (fun tx htx => htx.abides) hn
  have hbuilt : ∀ a account, s.view.contract a = some account → ∃ m, Built B s.view a account m ∧
      ∀ deps, account.getContractDeps Engine.decodeByteStrings = .ok deps → ∀ d ∈ deps, B.layer d < B.layer a :=
    fun a account hacc => hledgered.holds hinj hacc
  have hlower : ∀ {a d : Address}, s.DependsOn a d → B.layer d < B.layer a := by
    refine dependsOn_lower fun a account hacc => ?_
    obtain ⟨-, -, hdeps⟩ := hbuilt a account hacc
    exact hdeps
  refine ⟨?_, ?_, ?_⟩
  · intro a hcycle
    have hfalls : ∀ d, Relation.TransGen s.DependsOn a d → B.layer d < B.layer a := by
      intro d hpath
      induction hpath with
      | single hdep => exact hlower hdep
      | tail _ hdep ih => exact (hlower hdep).trans ih
    exact Nat.lt_irrefl _ (hfalls a hcycle)
  · -- a chain is no longer than the layers it goes down
    have hfits : ∀ (chain : List Address) (a : Address), (a :: chain).IsChain s.DependsOn →
        chain.length ≤ B.layer a := by
      intro chain
      induction chain with
      | nil => exact fun _ _ => Nat.zero_le _
      | cons d chain ih =>
        intro a hchain
        obtain ⟨hdep, hrest⟩ := List.isChain_cons_cons.mp hchain
        have hlayer := ih d hrest
        have := hlower hdep
        rw [List.length_cons]
        omega
    intro chain hchain
    cases chain with
    | nil => exact Nat.zero_le _
    | cons a chain =>
      cases chain with
      | nil => exact Nat.succ_le_succ (Nat.zero_le _)
      | cons d chain =>
        obtain ⟨⟨account, -, hacc, -⟩, -⟩ := List.isChain_cons_cons.mp hchain
        obtain ⟨m, hm, -⟩ := hbuilt a account hacc
        have hlength := hfits _ a hchain
        have hlayer := hm.fits.layer
        rw [List.length_cons]
        omega
  · intro a account hacc _
    obtain ⟨m, hm, -⟩ := hbuilt a account hacc
    refine ⟨m, hm.loads, fun tx blockTime => ?_⟩
    have hholds : B.Holds s.view := by
      intro a account hacc
      obtain ⟨m, hm, -⟩ := hbuilt a account hacc
      exact ⟨m, hm⟩
    have hinitial : B.Links (VM.initial account tx blockTime) := fun name l hl => by cases hl
    have hself : B.layer a ≤ B.layer (VM.initial account tx blockTime).self := by
      show B.layer a ≤ B.layer account.owner
      rw [hm.owner]
    obtain ⟨vm', hrun, -⟩ := loadContractDeps_some (level s.view maxLevels) hholds maxDepChainDepth hm hm.fits.layer
      hinitial hself
    unfold newVM
    rw [hrun]

end State

end Linkable

/-! ## §5 — contracts that import each other, by hand -/

/-- The contracts of keys 7 and 8 can be imported. -/
def pairName (name : String) : Option UInt8 :=
  if name = "seven" then some 7 else if name = "eight" then some 8 else none

/-- A contract that imports the one of key 7. -/
def backModule : Module where
  imports := [("seven", entryOnTx)]
  exports := [(entryOnTx, some ⟨[], []⟩)]
  fresh := ⟨none, []⟩
  start := none
  func _ := none

def backCode : Bytes := wasmMagic ++ [3]

def pairTable (source : Bytes) : Option Module :=
  if source = backCode then some backModule else importerTable entryOnTx source

/-- Key 8 deploys a contract with hooks and key 7 one that imports it; then key 8 upgrades its contract to one that
imports the contract of key 7. -/
def pairChain : List FullBlock :=
  letI := Crypto.ofHash handHash
  let b4 := importerChain.getD 3 handGenesis
  let b5 := handSeal b4 9 [] [handCommit 8 5 0 (handDeploy 8 6 backCode)]
  importerChain.take 4 ++ [b5, handSeal b5 9 [handDeploy 8 6 backCode] []]

/-- Key 8 below key 7, and no promises. -/
def pairBlueprint [Engine] : Blueprint where
  deployed source := source = hookedCode ∨ source = importerCode
  layer a := if a = handAddr 8 then 0 else 1
  offers _ _ := True

theorem fits_hooked :
    letI := Engine.linking pairName pairTable
    pairBlueprint.Fits (handAddr 8) hookedModule := by
  let _ := Engine.linking pairName pairTable
  refine ⟨rfl, trivial, by decide, by decide +kernel, ?_, fun _ _ _ _ => rfl⟩
  intro names name d hnames hname
  obtain rfl : [] = names := Except.ok.inj hnames
  cases hname

theorem fits_importer :
    letI := Engine.linking pairName pairTable
    pairBlueprint.Fits (handAddr 7) (importerModule entryOnTx) := by
  let _ := Engine.linking pairName pairTable
  refine ⟨rfl, trivial, by decide, by decide +kernel, ?_, fun _ _ _ _ => rfl⟩
  intro names name d hnames hname hd
  have hparse : parseContractDeps (importerModule entryOnTx) = .ok ["eight"] := by decide +kernel
  obtain rfl := Except.ok.inj (hparse.symm.trans hnames)
  obtain rfl := List.mem_singleton.mp hname
  have haddr : newAddressFromBS58 "eight" = some (handAddr 8) := by decide +kernel
  obtain rfl := Option.some.inj (haddr.symm.trans hd)
  decide +kernel

/-- What the first blocks of the pair deploy keeps to the blueprint. -/
theorem permits_importerChain :
    letI := Engine.linking pairName pairTable
    ∀ block ∈ importerChain, ∀ tx ∈ block.txs, pairBlueprint.Permits tx := by
  let _ := Engine.linking pairName pairTable
  have hcodes : ∀ block ∈ importerChain, ∀ tx ∈ block.txs, tx.type = deployTx →
      tx.fromAddr = .ok (handAddr 8) ∧ decodeCommitCode Engine.inflate tx.extra = .ok hookedCode ∨
        tx.fromAddr = .ok (handAddr 7) ∧ decodeCommitCode Engine.inflate tx.extra = .ok importerCode := by
    decide +kernel
  intro block hblock tx htx htype a source hfrom _ hsource
  rcases hcodes block hblock tx htx htype with ⟨hfrom', hsource'⟩ | ⟨hfrom', hsource'⟩
  · obtain rfl := Except.ok.inj (hfrom'.symm.trans hfrom)
    obtain rfl := Except.ok.inj (hsource'.symm.trans hsource)
    have hload : loadContractWasm hookedCode = some hookedModule := rfl
    refine ⟨.inl rfl, fun m hm => ?_⟩
    obtain rfl := Option.some.inj (hload.symm.trans hm)
    exact fits_hooked
  · obtain rfl := Except.ok.inj (hfrom'.symm.trans hfrom)
    obtain rfl := Except.ok.inj (hsource'.symm.trans hsource)
    have hload : loadContractWasm importerCode = some (importerModule entryOnTx) := rfl
    refine ⟨.inr rfl, fun m hm => ?_⟩
    obtain rfl := Option.some.inj (hload.symm.trans hm)
    exact fits_importer

/-- The importer above the contract it imports: both link. -/
theorem linkable_importerChain :
    letI := Engine.linking pairName pairTable
    ∃ s, State.Passes ⟨ZERONET, false⟩ pairBlueprint.Permits 9 s ∧ s.DependsOn (handAddr 7) (handAddr 8) ∧
      s.Linkable := by
  let _ := Engine.linking pairName pairTable
  have hrun := upgradesTo_of_upgradeAll (State.eq_after
    (x := upgradeAll ⟨ZERONET, false⟩ importerChain (State.genesis false)) (by decide +kernel))
  have hgenesis : State.Passes ⟨ZERONET, false⟩ pairBlueprint.Permits 1 (State.genesis false) := by
    refine State.Passes.genesis (fun tx htype hdeploy => ?_) (State.genesis_eq false)
    rw [htype] at hdeploy
    exact absurd hdeploy (by decide)
  have hpasses := hgenesis.upgradesTo permits_importerChain hrun
  have hcount : 1 + (importerChain.flatMap FullBlock.txs).length = 9 := by decide +kernel
  rw [hcount] at hpasses
  have hinj : ∀ x y, pairBlueprint.deployed x → pairBlueprint.deployed y → hash256 x = hash256 y → x = y := by
    rintro x y (rfl | rfl) (rfl | rfl) hxy
    · rfl
    · exact absurd hxy (by decide +kernel)
    · exact absurd hxy (by decide +kernel)
    · rfl
  exact ⟨_, hpasses, by decide +kernel, hpasses.linkable (decodesDeps_linking _ _) pairBlueprint hinj (by decide)⟩

/-- **An upgrade closes a cycle**: once key 8 has upgraded its contract to one that imports the contract of key 7,
the two depend on each other, and the contract of key 7 — nobody touched it — does not link any more. -/
theorem upgrade_closes_cycle :
    letI := Engine.linking pairName pairTable
    ∃ s s', UpgradesTo ⟨ZERONET, false⟩ (State.genesis false) (pairChain.take 4) s ∧
      UpgradesTo ⟨ZERONET, false⟩ s (pairChain.drop 4) s' ∧
      s'.DependsOn (handAddr 7) (handAddr 8) ∧ s'.DependsOn (handAddr 8) (handAddr 7) ∧
      ∃ account account', s.getContract (handAddr 7) = some account ∧ s'.getContract (handAddr 7) = some account' ∧
        account.isLive = true ∧ account'.isLive = true ∧
        account.source = importerCode ∧ account'.source = importerCode ∧
        (newVM s.view account (handPay 9 7 (handAddr 7) 0) 0 (importerModule entryOnTx)).1 = some () ∧
        (newVM s'.view account' (handPay 9 7 (handAddr 7) 0) 0 (importerModule entryOnTx)).1 = none := by
  let _ := Engine.linking pairName pairTable
  let first := upgradeAll ⟨ZERONET, false⟩ (pairChain.take 4) (State.genesis false)
  let second := upgradeAll ⟨ZERONET, false⟩ (pairChain.drop 4) (State.after first)
  -- one evaluation of the run answers every question about its two states
  have hall : (first.isOk = true ∧ second.isOk = true) ∧
      ((State.after second).DependsOn (handAddr 7) (handAddr 8) ∧
        (State.after second).DependsOn (handAddr 8) (handAddr 7)) ∧
      ((State.after first).getContract (handAddr 7)).any (fun account => account.isLive = true ∧
        account.source = importerCode ∧ (newVM (State.after first).view account (handPay 9 7 (handAddr 7) 0) 0
          (importerModule entryOnTx)).1 = some ()) = true ∧
      ((State.after second).getContract (handAddr 7)).any (fun account => account.isLive = true ∧
        account.source = importerCode ∧ (newVM (State.after second).view account (handPay 9 7 (handAddr 7) 0) 0
          (importerModule entryOnTx)).1 = none) = true := by
    decide +kernel
  rcases hall with ⟨⟨hfirst, hsecond⟩, ⟨hforth, hback⟩, hbefore, hafter⟩
  have hrun := upgradesTo_of_upgradeAll (State.eq_after hfirst)
  have hrun' := upgradesTo_of_upgradeAll (State.eq_after hsecond)
  generalize State.after second = s' at hforth hback hafter hrun'
  generalize State.after first = s at hbefore hrun hrun'
  rcases (Option.any_eq_true _ _).mp hbefore with ⟨account, hacc, htest⟩
  rcases (Option.any_eq_true _ _).mp hafter with ⟨account', hacc', htest'⟩
  rcases of_decide_eq_true htest with ⟨hlive, hsource, hlinks⟩
  rcases of_decide_eq_true htest' with ⟨hlive', hsource', hfails⟩
  exact ⟨s, s', hrun, hrun', hforth, hback, account, account', hacc, hacc', hlive, hlive', hsource, hsource', hlinks,
    hfails⟩

end NgCore
