/-
The links of the attestation chain, in the order of L1.

One pass over the transactions, from first to last, follows the anchor: what spends
it is a link or breaks the chain.  The follower scans a block again from its start
after every link it finds there.  It finds what the pass finds, since a spend comes
after what it spends.
-/
import Hodlchain.Node.Bitcoind

namespace Hodlchain

/-- What following an anchor has come to: the links, and the anchor at their end or why there is
none. -/
abbrev Followed (ε : Type) : Type := List ChainAdvance × Except ε OutPoint

namespace Followed

variable {ε ε' : Type}

/-- Go on from the end. -/
def andThen (r : Followed ε) (f : OutPoint → Followed ε) : Followed ε :=
  match r.2 with
  | .error e => (r.1, .error e)
  | .ok anchor => (r.1 ++ (f anchor).1, (f anchor).2)

/-- The same, with other errors. -/
def mapErr (g : ε → ε') (r : Followed ε) : Followed ε' := (r.1, r.2.mapError g)

theorem nil_andThen (anchor : OutPoint) (f : OutPoint → Followed ε) :
    andThen ([], .ok anchor) f = f anchor := rfl

theorem cons_andThen (adv : ChainAdvance) (r : Followed ε) (f : OutPoint → Followed ε) :
    andThen (adv :: r.1, r.2) f = (adv :: (r.andThen f).1, (r.andThen f).2) := by
  unfold andThen
  cases r.2 with
  | error e => rfl
  | ok anchor => rfl

theorem mapErr_andThen (g : ε → ε') (r : Followed ε) (f : OutPoint → Followed ε) :
    ((r.mapErr g).andThen fun a => (f a).mapErr g) = (r.andThen f).mapErr g := by
  obtain ⟨links, stop⟩ := r
  cases stop with
  | error e => rfl
  | ok anchor => rfl

end Followed

namespace Chain

/-- The transactions of blocks from height `h` up, each with its height. -/
def placedFrom : ℕ → List BtcBlock → List (ℕ × BtcTx)
  | _, [] => []
  | h, b :: bs => b.txdata.map (fun tx => (h, tx)) ++ placedFrom (h + 1) bs

/-- The transactions of a chain, each with the height of its block. -/
def placed (c : Chain) : List (ℕ × BtcTx) := placedFrom 0 c

/-- Follow an anchor through transactions in their order. -/
def pass : OutPoint → List (ℕ × BtcTx) → Followed ScanError
  | anchor, [] => ([], .ok anchor)
  | anchor, (h, tx) :: rest =>
      if tx.input.contains anchor then
        match readAdvance h anchor tx with
        | .error e => ([], .error e)
        | .ok adv => (adv :: (pass adv.newAnchor rest).1, (pass adv.newAnchor rest).2)
      else pass anchor rest

/-- Links in a row: each is read from a transaction of the chain that spends the anchor before. -/
def Linked (c : Chain) : OutPoint → List ChainAdvance → OutPoint → Prop
  | anchor, [], last => anchor = last
  | anchor, adv :: rest, last =>
      (∃ h tx, (h, tx) ∈ c.placed ∧ anchor ∈ tx.input ∧ readAdvance h anchor tx = .ok adv) ∧
        c.Linked adv.newAnchor rest last

/-- What every L1 chain is: no two transactions share an id, no outpoint is spent twice, and no
transaction spends what it creates itself or what only a later one creates. -/
structure Valid (c : Chain) : Prop where
  uniqueTxids : c.UniqueTxids
  spentOnce : ∀ tx ∈ c.txs, ∀ tx' ∈ c.txs, ∀ op ∈ tx.input, op ∈ tx'.input → tx = tx'
  notOwn : ∀ tx ∈ c.txs, ∀ op ∈ tx.input, op.txid ≠ tx.txid
  notLater : c.txs.Pairwise fun tx later => ∀ op ∈ tx.input, op.txid ≠ later.txid

/-! ### Passes -/

theorem pass_cons (anchor : OutPoint) (h : ℕ) (tx : BtcTx) (rest : List (ℕ × BtcTx)) :
    pass anchor ((h, tx) :: rest) = if tx.input.contains anchor then
        match readAdvance h anchor tx with
        | .error e => ([], .error e)
        | .ok adv => (adv :: (pass adv.newAnchor rest).1, (pass adv.newAnchor rest).2)
      else pass anchor rest := rfl

theorem pass_append (anchor : OutPoint) (front back : List (ℕ × BtcTx)) :
    pass anchor (front ++ back) = (pass anchor front).andThen fun a => pass a back := by
  induction front generalizing anchor with
  | nil => rfl
  | cons p front ih =>
      obtain ⟨h, tx⟩ := p
      rw [List.cons_append, pass_cons, pass_cons]
      by_cases hspends : tx.input.contains anchor = true
      · rw [if_pos hspends, if_pos hspends]
        cases readAdvance h anchor tx with
        | error e => rfl
        | ok adv =>
            dsimp only
            rw [ih, Followed.cons_andThen]
      · rw [if_neg hspends, if_neg hspends]
        exact ih anchor

theorem pass_unspent {anchor : OutPoint} {txs : List (ℕ × BtcTx)}
    (h : ∀ p ∈ txs, anchor ∉ p.2.input) : pass anchor txs = ([], .ok anchor) := by
  induction txs with
  | nil => rfl
  | cons p txs ih =>
      obtain ⟨hp, hrest⟩ := List.forall_mem_cons.mp h
      obtain ⟨height, tx⟩ := p
      rw [pass_cons, if_neg (by simpa using hp)]
      exact ih hrest

/-- The first spend of the anchor is the next link. -/
theorem pass_spent {anchor : OutPoint} {front back : List (ℕ × BtcTx)} {h : ℕ} {tx : BtcTx}
    (hfront : ∀ p ∈ front, anchor ∉ p.2.input) (hspends : anchor ∈ tx.input) :
    pass anchor (front ++ (h, tx) :: back) = match readAdvance h anchor tx with
      | .error e => ([], .error e)
      | .ok adv => (adv :: (pass adv.newAnchor back).1, (pass adv.newAnchor back).2) := by
  rw [pass_append, pass_unspent hfront, Followed.nil_andThen, pass_cons,
    if_pos (by simpa using hspends)]

theorem map_snd_placedFrom (h : ℕ) (bs : List BtcBlock) :
    (placedFrom h bs).map Prod.snd = Chain.txs bs := by
  induction bs generalizing h with
  | nil => rfl
  | cons b bs ih =>
      unfold placedFrom
      rw [List.map_append, List.map_map, ih]
      have hid : b.txdata.map (Prod.snd ∘ fun tx => (h, tx)) = b.txdata := List.map_id _
      rw [hid]
      rfl

theorem placedFrom_append (h : ℕ) (front back : List BtcBlock) :
    placedFrom h (front ++ back) = placedFrom h front ++ placedFrom (h + front.length) back := by
  induction front generalizing h with
  | nil => rfl
  | cons b front ih =>
      rw [List.cons_append, placedFrom, ih, placedFrom, List.append_assoc, List.length_cons,
        Nat.add_assoc, Nat.add_comm 1]

theorem mem_placedFrom {h k : ℕ} {bs : List BtcBlock} {tx : BtcTx} :
    (k, tx) ∈ placedFrom h bs ↔ ∃ i b, bs[i]? = some b ∧ tx ∈ b.txdata ∧ k = h + i := by
  induction bs generalizing h with
  | nil => simp [placedFrom]
  | cons b bs ih =>
      unfold placedFrom
      rw [List.mem_append, ih]
      constructor
      · rintro (hmem | ⟨i, b', hb', htx, rfl⟩)
        · obtain ⟨u, hu, heq⟩ := List.mem_map.mp hmem
          obtain ⟨rfl, rfl⟩ := Prod.mk.inj heq
          exact ⟨0, b, rfl, hu, rfl⟩
        · exact ⟨i + 1, b', hb', htx, by omega⟩
      · rintro ⟨i, b', hb', htx, rfl⟩
        cases i with
        | zero =>
            obtain rfl : b = b' := Option.some.inj hb'
            exact .inl (List.mem_map.mpr ⟨tx, htx, rfl⟩)
        | succ i => exact .inr ⟨i, b', hb', htx, by omega⟩

theorem txs_eq_placed (c : Chain) : c.txs = c.placed.map Prod.snd := (map_snd_placedFrom 0 c).symm

theorem mem_placed {c : Chain} {h : ℕ} {tx : BtcTx} :
    (h, tx) ∈ c.placed ↔ ∃ b, (c)[h]? = some b ∧ tx ∈ b.txdata := by
  unfold placed
  rw [mem_placedFrom]
  constructor
  · rintro ⟨i, b, hb, htx, rfl⟩
    exact ⟨b, by rwa [Nat.zero_add], htx⟩
  · rintro ⟨b, hb, htx⟩
    exact ⟨h, b, hb, htx, (Nat.zero_add h).symm⟩

theorem mem_txs_of_placed {c : Chain} {p : ℕ × BtcTx} (h : p ∈ c.placed) : p.2 ∈ c.txs := by
  rw [txs_eq_placed]
  exact List.mem_map.mpr ⟨p, h, rfl⟩

theorem placedFrom_le {h : ℕ} {bs : List BtcBlock} : ∀ p ∈ placedFrom h bs, h ≤ p.1 := by
  intro p hp
  obtain ⟨i, b, -, -, heq⟩ := mem_placedFrom.mp hp
  omega

/-- Heights do not fall. -/
theorem placedFrom_pairwise (h : ℕ) (bs : List BtcBlock) :
    (placedFrom h bs).Pairwise fun p q => p.1 ≤ q.1 := by
  induction bs generalizing h with
  | nil => exact .nil
  | cons b bs ih =>
      unfold placedFrom
      refine List.pairwise_append.mpr ⟨?_, ih (h + 1), ?_⟩
      · exact List.pairwise_map.mpr (List.pairwise_of_forall fun _ _ => Nat.le_refl h)
      · intro p hp q hq
        obtain ⟨tx, -, rfl⟩ := List.mem_map.mp hp
        exact Nat.le_of_succ_le (placedFrom_le q hq)

/-! ### Spends come later -/

/-- What a transaction creates is spent neither before it nor by itself. -/
theorem Valid.not_spent_before {c : Chain} (hc : c.Valid) {front back : List BtcTx} {tx u : BtcTx}
    {op : OutPoint} (htxs : c.txs = front ++ tx :: back) (hop : op.txid = tx.txid)
    (hu : u ∈ front ++ [tx]) : op ∉ u.input := by
  intro hspends
  rcases List.mem_append.mp hu with hu | hu
  · have hpairs := hc.notLater
    rw [htxs] at hpairs
    exact (List.pairwise_append.mp hpairs).2.2 u hu tx List.mem_cons_self op hspends hop
  · obtain rfl := List.mem_singleton.mp hu
    have hmem : u ∈ c.txs := by
      rw [htxs]
      simp
    exact hc.notOwn u hmem op hspends hop

/-- What a transaction creates is spent in its block or above. -/
theorem Valid.spent_above {c : Chain} (hc : c.Valid) {h k : ℕ} {tx u : BtcTx} {op : OutPoint}
    (htx : (h, tx) ∈ c.placed) (hop : op.txid = tx.txid) (hu : (k, u) ∈ c.placed)
    (hspends : op ∈ u.input) : h ≤ k := by
  obtain ⟨front, back, hsplit⟩ := List.append_of_mem htx
  have htxs : c.txs = front.map Prod.snd ++ tx :: back.map Prod.snd := by
    rw [txs_eq_placed, hsplit, List.map_append, List.map_cons]
  have hearlier : ∀ v ∈ front.map Prod.snd ++ [tx], op ∉ v.input := fun v hv =>
    hc.not_spent_before htxs hop hv
  rw [hsplit, List.append_cons] at hu
  rcases List.mem_append.mp hu with hu | hu
  · refine absurd hspends (hearlier u ?_)
    rw [← List.map_singleton (f := Prod.snd) (a := (h, tx)), ← List.map_append]
    exact List.mem_map.mpr ⟨_, hu, rfl⟩
  · have hsorted : c.placed.Pairwise fun p q => p.1 ≤ q.1 := placedFrom_pairwise 0 c
    rw [hsplit] at hsorted
    exact (List.pairwise_cons.mp (List.pairwise_append.mp hsorted).2.1).1 _ hu

end Chain

/-! ### The follower's procedure -/

/-- Why the follower stops. -/
inductive FollowStop where
  | scan (cause : ScanError)
  | outOfFuel
deriving DecidableEq, Repr

/-- Scan a block until it yields no more, moving to the new anchor each time; for at most `fuel`
scans. -/
def followBlock (c : Chain) (h : ℕ) : ℕ → OutPoint → Followed FollowStop
  | 0, _ => ([], .error .outOfFuel)
  | fuel + 1, anchor =>
      match scanBlockForChainAdvance c h anchor with
      | .error e => ([], .error (.scan e))
      | .ok none => ([], .ok anchor)
      | .ok (some adv) =>
          (adv :: (followBlock c h fuel adv.newAnchor).1, (followBlock c h fuel adv.newAnchor).2)

/-- The same for block after block. -/
def followBlocks (c : Chain) (fuel : ℕ) : List ℕ → OutPoint → Followed FollowStop
  | [], anchor => ([], .ok anchor)
  | h :: hs, anchor => (followBlock c h fuel anchor).andThen (followBlocks c fuel hs)

/-! ### The follower finds what the pass finds -/

variable {c : Chain}

theorem find?_spender {txs front back : List BtcTx} {tx : BtcTx} {anchor : OutPoint}
    (htxs : txs = front ++ tx :: back) (hfront : ∀ u ∈ front, anchor ∉ u.input)
    (hspends : anchor ∈ tx.input) : txs.find? (fun u => u.input.contains anchor) = some tx := by
  rw [htxs, List.find?_append, List.find?_cons_of_pos (by simpa using hspends)]
  have hnone : front.find? (fun u => u.input.contains anchor) = none :=
    List.find?_eq_none.mpr fun u hu => by simpa using hfront u hu
  rw [hnone]
  rfl

theorem exists_first_spender {α : Type} (input : α → List OutPoint) {txs : List α}
    {anchor : OutPoint} (h : ∃ u ∈ txs, anchor ∈ input u) :
    ∃ front tx back, txs = front ++ tx :: back ∧
      (∀ u ∈ front, anchor ∉ input u) ∧ anchor ∈ input tx := by
  induction txs with
  | nil => simp at h
  | cons u txs ih =>
      by_cases hu : anchor ∈ input u
      · exact ⟨[], u, txs, rfl, nofun, hu⟩
      · have hrest : ∃ v ∈ txs, anchor ∈ input v := by
          obtain ⟨v, hv, hin⟩ := h
          rcases List.mem_cons.mp hv with rfl | hv
          · exact absurd hin hu
          · exact ⟨v, hv, hin⟩
        obtain ⟨front, tx, back, rfl, hfront, hspends⟩ := ih hrest
        exact ⟨u :: front, tx, back, rfl, List.forall_mem_cons.mpr ⟨hu, hfront⟩, hspends⟩

/-- **Scanning a block again and again is one pass over it.** -/
theorem followBlock_eq (hc : c.Valid) {before after : List BtcBlock} {block : BtcBlock}
    (hsplit : c = before ++ block :: after) :
    ∀ (back front : List BtcTx) (anchor : OutPoint) (fuel : ℕ), block.txdata = front ++ back →
      (∀ u ∈ front, anchor ∉ u.input) → back.length < fuel →
      followBlock c before.length fuel anchor
        = (Chain.pass anchor (back.map fun tx => (before.length, tx))).mapErr .scan := by
  have hblock : (c)[before.length]? = some block := by
    rw [hsplit, List.getElem?_append_right (Nat.le_refl _), Nat.sub_self]
    rfl
  intro back
  induction hlen : back.length using Nat.strong_induction_on generalizing back with
  | _ n ih =>
      intro front anchor fuel htxs hfront hfuel
      obtain ⟨fuel, rfl⟩ := Nat.exists_eq_succ_of_ne_zero (Nat.ne_of_gt (Nat.zero_lt_of_lt hfuel))
      unfold followBlock scanBlockForChainAdvance
      rw [hblock]
      by_cases hany : ∃ u ∈ back, anchor ∈ u.input
      · obtain ⟨front', tx, back', hback, hfront', hspends⟩ := exists_first_spender BtcTx.input hany
        have hfind := @find?_spender block.txdata (front ++ front') back' tx anchor
          (by rw [htxs, hback, List.append_assoc]) (fun u hu => by
            rcases List.mem_append.mp hu with hu | hu
            · exact hfront u hu
            · exact hfront' u hu) hspends
        have hpass := @Chain.pass_spent anchor (front'.map fun tx => (before.length, tx))
          (back'.map fun tx => (before.length, tx)) before.length tx
            (by simpa using hfront') hspends
        rw [hback, List.map_append, List.map_cons, hpass]
        simp only [hfind]
        cases hread : readAdvance before.length anchor tx with
        | error e => rfl
        | ok adv =>
            obtain ⟨-, -, hnew, -⟩ := readAdvance_ok hread
            have hshorter : back'.length < back.length := by
              rw [hback, List.length_append, List.length_cons]
              omega
            -- nothing up to the link spends what the link has created
            have hlater : ∀ u ∈ front ++ front' ++ [tx], adv.newAnchor ∉ u.input := by
              intro u hu
              refine @Chain.Valid.not_spent_before c hc (Chain.txs before ++ (front ++ front'))
                (back' ++ Chain.txs after) tx u adv.newAnchor ?_ (by rw [hnew]) ?_
              · rw [hsplit]
                unfold Chain.txs
                rw [List.flatMap_append, List.flatMap_cons, htxs, hback]
                simp
              · rw [List.append_assoc]
                exact List.mem_append_right _ hu
            have hrest := ih back'.length (by omega) back' rfl (front ++ front' ++ [tx])
              adv.newAnchor fuel (by rw [htxs, hback]; simp) hlater (by omega)
            dsimp only
            rw [hrest]
            rfl
      · have hnone : ∀ u ∈ back, anchor ∉ u.input := fun u hu hin => hany ⟨u, hu, hin⟩
        have hfind : block.txdata.find? (fun u => u.input.contains anchor) = none := by
          rw [htxs]
          refine List.find?_eq_none.mpr fun u hu => ?_
          rcases List.mem_append.mp hu with hu | hu
          · simpa using hfront u hu
          · simpa using hnone u hu
        rw [Chain.pass_unspent (by simpa using hnone)]
        simp only [hfind]
        rfl

/-- The heights from one up to the tip. -/
def Chain.heightsFrom (c : Chain) (h : ℕ) : List ℕ := List.range' h (c.length - h)

/-- **The follower's procedure over blocks is one pass over them.** -/
theorem followBlocks_eq (hc : c.Valid) {fuel : ℕ} (hfuel : c.txs.length < fuel) :
    ∀ (after before : List BtcBlock) (anchor : OutPoint), c = before ++ after →
      followBlocks c fuel (List.range' before.length after.length) anchor
        = (Chain.pass anchor (Chain.placedFrom before.length after)).mapErr .scan := by
  intro after
  induction after with
  | nil =>
      intro before anchor _
      rfl
  | cons block after ih =>
      intro before anchor hsplit
      have hlen : block.txdata.length < fuel := by
        refine Nat.lt_of_le_of_lt ?_ hfuel
        rw [hsplit]
        unfold Chain.txs
        simp
        omega
      have hone := followBlock_eq hc hsplit block.txdata [] anchor fuel rfl nofun hlen
      have hrest : followBlocks c fuel (List.range' (before.length + 1) after.length)
          = fun a => (Chain.pass a (Chain.placedFrom (before.length + 1) after)).mapErr .scan := by
        funext a
        have hnext := ih (before ++ [block]) a (by rw [hsplit, List.append_assoc]; rfl)
        rwa [List.length_append] at hnext
      rw [List.length_cons, List.range'_succ, followBlocks, hone, hrest, Chain.placedFrom,
        Chain.pass_append]
      exact Followed.mapErr_andThen _ _ _

end Hodlchain
