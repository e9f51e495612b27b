import LibSmoke.Knx.Gdh2KeyExchange

/-!
# The key at the end of the chain

Every node starts its exchange, the first one with a point to the second. Then
each is given what the one before it has sent, and in the end all others are
given what the last one broadcasts (`handed`, `finished`). What goes from hand to
hand are the lists of `Sban/Gdh2.lean`, and all nodes end with the key that is
made from the product of all scalars.
-/

namespace LibSmoke

namespace Chain

variable {m : Nat}

/-- Node `k` when it has started. -/
def start (g : EcpGroup) (ids : Fin (m + 2) → UInt16) (draw : Nat → Nat → Nat) (k : Nat) :
    Gdh2KeyExchange × List Outgoing × Bool :=
  Gdh2KeyExchange.init g (idOf ids k) (Agreement.nodeset ids) (.new (some (draw k)))

/-- The packets an act wrote, as they come from node `k`. -/
def packets (ids : Fin (m + 2) → UInt16) (k : Nat) (wrote : List Outgoing) : List Pkt :=
  wrote.map (·.pkt (idOf ids k))

/-- Node `k` when it has been given what the one before it sent; the first one
has only started. -/
def handed (g : EcpGroup) (ids : Fin (m + 2) → UInt16) (draw : Nat → Nat → Nat) :
    Nat → Act Gdh2KeyExchange
  | 0 => ⟨(start g ids draw 0).1, [], (start g ids draw 0).2.1, (start g ids draw 0).2.2⟩
  | k + 1 => Gdh2KeyExchange.update (packets ids k (handed g ids draw k).wrote)
      (start g ids draw (k + 1)).1

/-- Node `k` when it has been given the broadcast of the last one too. -/
def finished (g : EcpGroup) (ids : Fin (m + 2) → UInt16) (draw : Nat → Nat → Nat)
    (k : Nat) : Act Gdh2KeyExchange :=
  if k = m + 1 then handed g ids draw k
  else Gdh2KeyExchange.update (packets ids (m + 1) (handed g ids draw (m + 1)).wrote)
    (handed g ids draw k).state

/-! ## A node in its place -/

section Place

variable {ids : Fin (m + 2) → UInt16} (hids : ∀ i j, i < j → ids i < ids j)

def netAt (ids : Fin (m + 2) → UInt16) (k : Nat) : NetworkT :=
  ⟨idOf ids k, idOf ids (k + (m + 1)), idOf ids (k + 1), idOf ids 0, idOf ids (m + 1),
    UInt16.ofNat (k + 1)⟩

def roleAt (m k : Nat) : Gdh2Role :=
  if k = 0 then .first else if k = m + 1 then .last else .simple

/-- Node `k` with a context. -/
def behaviorAt (ids : Fin (m + 2) → UInt16) (k : Nat) (ctx : Gdh2Context) :
    Gdh2Behavior :=
  ⟨0, List.replicate gdh2Bufsize 0, gdh2Bufsize * (m + 3), false, true, ctx, netAt ids k,
    roleAt m k⟩

/-- Node `k` once it has a key. -/
def behaviorDone (ids : Fin (m + 2) → UInt16) (k : Nat) (ctx : Gdh2Context)
    (key : List UInt8) : Gdh2Behavior :=
  { behaviorAt ids k ctx with
    key := memcpy (List.replicate gdh2Bufsize 0) 0 key
    keylen := key.length
    completed := true }

/-- Where what node `k` makes goes. -/
def valOf (ids : Fin (m + 2) → UInt16) (k : Nat) (bytes : List UInt8) : Outgoing :=
  if k = m + 1 then valPacket broadcastAddr cmdGdh2LastVal bytes
  else valPacket (idOf ids (k + 1)) cmdGdh2NodeVal bytes

include hids

theorem of_idOf {k : Nat} (hk : k < m + 2) :
    NetworkT.of (idOf ids k) (Agreement.nodeset ids) = netAt ids k := by
  have hval : (Fin.ofNat (m + 2) k).val = k := Nat.mod_eq_of_lt hk
  have hself : ids (Fin.ofNat (m + 2) k) = idOf ids k := rfl
  have hof := NetworkT.of_ids hids (Fin.ofNat (m + 2) k)
  rw [hself, hval] at hof
  rw [hof, netAt, around, around, hval]
  congr 1
  refine congrArg ids (Fin.ext ?_)
  rw [Fin.val_last, Fin.val_ofNat, Nat.mod_eq_of_lt (Nat.lt_succ_self _)]

theorem roleOf_netAt {k : Nat} (hk : k < m + 2) :
    Gdh2KeyExchange.roleOf (netAt ids k) = roleAt m k := by
  have hfirst := idOf_inj hids hk (Nat.succ_pos (m + 1))
  have hlast := idOf_inj hids hk (Nat.lt_succ_self (m + 1))
  rw [Gdh2KeyExchange.roleOf, roleAt]
  simp only [netAt, hfirst, hlast]

omit hids in
/-- The node before the one with number `k + 1` is the one with number `k`. -/
theorem prev_netAt {k : Nat} : (netAt ids (k + 1)).prev = idOf ids k := by
  refine congrArg ids (Fin.ext ?_)
  rw [Fin.val_ofNat, Fin.val_ofNat, show k + 1 + (m + 1) = k + (m + 2) by omega,
    Nat.add_mod_right]

end Place

/-! ## One packet -/

theorem valPacket_pkt {dest : UInt16} {cmd : UInt8} {bytes : List UInt8}
    (hlen : bytes.length < 2 ^ 16) (src : UInt16) :
    (valPacket dest cmd bytes).pkt src = ⟨cmd, src, dest, bytes⟩ := by
  rw [Outgoing.pkt, valPacket]
  simp only []
  rw [Nat.mod_eq_of_lt hlen, List.take_length]

section Exact

variable {g : EcpGroup} {pt : ZMod g.N → EcpPoint} (hE : g.Exact pt)
  (hplen : g.plen = 32) {ids : Fin (m + 2) → UInt16}
  (hids : ∀ i j, i < j → ids i < ids j) (hsmall : m + 2 ≤ 255)
  {draw : Nat → Nat → Nat} {r : Nat → Int}
  (hdraw : ∀ k < m + 2, g.drawScalar (draw k) 30 0 = .ok (r k))

/-- The bytes node `k` hands on. -/
def bytesOf (g : EcpGroup) (pt : ZMod g.N → EcpPoint) (r : Nat → Int) (m k : Nat) :
    List UInt8 :=
  recordsOf g pt (handsOn g r (m + 2) k)

/-- The point all scalars make. -/
def wholePt (g : EcpGroup) (pt : ZMod g.N → EcpPoint) (r : Nat → Int) (m : Nat) :
    EcpPoint :=
  pt (product (scalars g r) (m + 2))

include hplen in
/-- Every output fits its buffer. -/
theorem bytesOf_length_le {k : Nat} (hk : k < m + 2) :
    (bytesOf g pt r m k).length ≤ gdh2Bufsize * (m + 3) := by
  have hlen := (handsOn_length (g := g) (r := r) (Nat.le_add_left 2 m) hk).2
  rw [bytesOf, recordsOf_length, hplen, gdh2Bufsize]
  omega

include hplen hsmall in
theorem bytesOf_length_lt {k : Nat} (hk : k < m + 2) :
    (bytesOf g pt r m k).length < 2 ^ 16 := by
  have hle : (bytesOf g pt r m k).length ≤ gdh2Bufsize * (m + 3) :=
    bytesOf_length_le hplen hk
  rw [gdh2Bufsize] at hle
  omega

include hsmall in
theorem netAt_pos {k : Nat} (hk : k < m + 2) : (netAt ids k).pos.toNat = k + 1 :=
  UInt16.toNat_ofNat_of_lt' (by
    have : UInt16.size = 65536 := rfl
    omega)

include hE hplen hids hsmall hdraw

omit hsmall in
/-- Every node starts, the first one with a point to the second. -/
theorem start_eq (hsmall : m + 2 ≤ 255) {k : Nat} (hk : k < m + 2) :
    start g ids draw k =
      (⟨.running, Agreement.nodeset ids, some (draw k),
        some (behaviorAt ids k ⟨g, r k, 0, m + 2⟩)⟩,
        if k = 0 then [valOf ids 0 (bytesOf g pt r m 0)] else [], true) := by
  have hcard := Agreement.card_nodeset (ids_injective hids)
  have hnew : Gdh2Behavior.new g (Agreement.nodeset ids) (netAt ids k) (roleAt m k)
      (draw k) = behaviorAt ids k ⟨g, r k, 0, m + 2⟩ := by
    rw [Gdh2Behavior.new, hcard, gdh2Init_ok (hdraw k hk)]
    rfl
  have hfirst : gdh2MakeFirstval ⟨g, r 0, 0, m + 2⟩ (gdh2Bufsize * (m + 3)) =
      .ok (bytesOf g pt r m 0) := by
    obtain ⟨h0, h1⟩ := drawScalar_range (hdraw 0 (Nat.succ_pos _))
    rw [gdh2MakeFirstval_pt hE h0 h1 (by rw [hplen, gdh2Bufsize]; omega), bytesOf, handsOn,
      if_neg (by omega), message, if_pos rfl, product, Finset.prod_range_one]
    rfl
  have hinit : (behaviorAt ids k ⟨g, r k, 0, m + 2⟩).init =
      ⟨behaviorAt ids k ⟨g, r k, 0, m + 2⟩,
        if k = 0 then [valOf ids 0 (bytesOf g pt r m 0)] else [], true⟩ := by
    rw [Gdh2Behavior.init, if_neg Bool.noConfusion]
    by_cases h0 : k = 0
    · subst h0
      have hrole : (behaviorAt ids 0 ⟨g, r 0, 0, m + 2⟩).role = .first := rfl
      rw [if_pos hrole, if_pos rfl]
      simp only [behaviorAt]
      rw [hfirst]
      rfl
    · have hrole : (behaviorAt ids k ⟨g, r k, 0, m + 2⟩).role ≠ .first := by
        simp only [behaviorAt, roleAt]
        rw [if_neg h0]
        split <;> decide
      rw [if_neg hrole, if_neg h0]
  have hcase := Gdh2KeyExchange.init_cases g (idOf ids k) (Agreement.nodeset ids)
    (.new (some (draw k)))
  rw [start]
  generalize Gdh2KeyExchange.init g (idOf ids k) (Agreement.nodeset ids)
    (.new (some (draw k))) = a at hcase ⊢
  cases hcase with
  | refused hbad =>
      have hbad := hbad rfl
      rw [hcard] at hbad
      omega
  | noDrbg _ hnone => cases hnone
  | behavior _ _ hsome hres =>
      cases hsome
      rw [of_idOf hids hk, roleOf_netAt hids hk, hnew, hinit] at hres
      rw [← hres]
      rfl

/-- A node that is not the first takes what the one before it hands on. -/
theorem recv_nodeVal {k : Nat} (hk : k < m + 1) :
    (behaviorAt ids (k + 1) ⟨g, r (k + 1), 0, m + 2⟩).onRecv
      ((valOf ids k (bytesOf g pt r m k)).pkt (idOf ids k)) =
      ⟨if k = m then behaviorDone ids (k + 1) (chainContext g pt r (m + 2) (k + 1))
          (keyOf g (wholePt g pt r m))
        else behaviorAt ids (k + 1) (chainContext g pt r (m + 2) (k + 1)),
        [valOf ids (k + 1) (bytesOf g pt r m (k + 1))], true⟩ := by
  have hroom : (m + 2 + 1) * (2 * g.plen + 2) ≤ gdh2Bufsize * (m + 3) := by
    rw [hplen, gdh2Bufsize]
    omega
  have hmake := gdh2MakeVal_handsOn hE hdraw (Nat.succ_lt_succ hk) (by rw [hplen]; decide)
    hroom
  have hpos : (netAt ids (k + 1)).pos.toNat = k + 2 :=
    netAt_pos hsmall (Nat.succ_lt_succ hk)
  have hprev : (netAt ids (k + 1)).prev = idOf ids k := prev_netAt
  rw [valOf, if_neg (Nat.ne_of_lt hk),
    valPacket_pkt (bytesOf_length_lt hplen hsmall (Nat.lt_succ_of_lt hk))]
  rw [← hpos] at hmake
  by_cases hlast : k = m
  · subst hlast
    have hrole : roleAt k (k + 1) = .last := by
      rw [roleAt, if_neg (Nat.succ_ne_zero k), if_pos rfl]
    have hexport : gdh2ExportKey (chainContext g pt r (k + 2) (k + 1)) gdh2Bufsize =
        .ok (keyOf g (wholePt g pt r k)) := by
      rw [chainContext, if_pos rfl, gdh2ExportKey_pt hE
        (product_ne_zero hE hdraw (Nat.le_refl _)) (by rw [hplen]; decide)]
      rfl
    rw [if_pos rfl, Gdh2Behavior.onRecv_last rfl hrole rfl hprev.symm hmake hexport, valOf,
      if_pos rfl]
    rfl
  · have hrole : roleAt m (k + 1) = .simple := by
      rw [roleAt, if_neg (Nat.succ_ne_zero k), if_neg (by omega)]
    rw [if_neg hlast, Gdh2Behavior.onRecv_simple rfl hrole rfl hprev.symm hmake, valOf,
      if_neg (by omega)]
    rfl

omit hids in
/-- Every other node takes the broadcast of the last one. -/
theorem recv_lastVal {k : Nat} (hk : k < m + 1) :
    (behaviorAt ids k (chainContext g pt r (m + 2) k)).onRecv
      ((valOf ids (m + 1) (bytesOf g pt r m (m + 1))).pkt (idOf ids (m + 1))) =
      ⟨behaviorDone ids k ⟨g, r k, (wholePt g pt r m).X, m + 2⟩
        (keyOf g (wholePt g pt r m)), [], true⟩ := by
  have hroom : g.plen ≤ gdh2Bufsize := by
    rw [hplen]
    decide
  have hcompute := gdh2ComputeKey_handsOn hE hdraw (Nat.succ_lt_succ hk)
    (by rw [hplen]; decide) hroom
  have hpos : (netAt ids k).pos.toNat = k + 1 := netAt_pos hsmall (Nat.lt_succ_of_lt hk)
  have hrole : roleAt m k ≠ .last := by
    rw [roleAt, if_neg (Nat.ne_of_lt hk)]
    split <;> decide
  rw [valOf, if_pos rfl,
    valPacket_pkt (bytesOf_length_lt hplen hsmall (Nat.lt_succ_self _))]
  rw [← hpos] at hcompute
  rw [Gdh2Behavior.onRecv_lastVal rfl hrole rfl rfl hcompute]
  rfl

/-- What each node has and has sent when it has been handed its packet. -/
theorem handed_eq {k : Nat} (hk : k < m + 2) :
    handed g ids draw k =
      ⟨⟨if k = m + 1 then .completed else .running, Agreement.nodeset ids,
          some (draw k),
          some (if k = m + 1 then behaviorDone ids k (chainContext g pt r (m + 2) k)
              (keyOf g (wholePt g pt r m))
            else behaviorAt ids k (chainContext g pt r (m + 2) k))⟩,
        [], [valOf ids k (bytesOf g pt r m k)], true⟩ := by
  induction k with
  | zero =>
      have hfirst : ¬ 0 = m + 1 := by omega
      have hnot : ¬ 0 + 1 = m + 2 := by omega
      rw [handed, start_eq hE hplen hids hdraw hsmall hk]
      simp only [chainContext, if_neg hfirst, if_neg hnot, if_true]
  | succ k ih =>
      have hrecv := recv_nodeVal hE hplen hids hsmall hdraw (Nat.lt_of_succ_lt_succ hk)
      rw [handed, ih (by omega), start_eq hE hplen hids hdraw hsmall hk, packets,
        List.map_singleton, Gdh2KeyExchange.update_one rfl rfl hrecv]
      by_cases hlast : k = m
      · subst hlast
        simp only [if_true]
        rfl
      · simp only [if_neg hlast, if_neg (show ¬ k + 1 = m + 1 by omega)]
        rfl

omit hE hplen hids hsmall hdraw in
/-- The key of a node that has one. -/
theorem key_behaviorDone {k : Nat} (status : KeyStatus) (nodes : Finset UInt16)
    (drbg : Option (Nat → Nat)) (ctx : Gdh2Context) (key : List UInt8) :
    Gdh2KeyExchange.key ⟨status, nodes, drbg, some (behaviorDone ids k ctx key)⟩ = key := by
  have htake := take_memcpy
    (Nat.zero_le (List.replicate gdh2Bufsize (0 : UInt8)).length) key
  rw [Nat.zero_add, List.take_zero, List.nil_append] at htake
  exact htake

theorem finished_completed {k : Nat} (hk : k < m + 2) :
    (finished g ids draw k).ok = true ∧
    (finished g ids draw k).state.status = .completed ∧
    (finished g ids draw k).state.key = keyOf g (wholePt g pt r m) := by
  rw [finished]
  split
  · next hlast =>
      rw [handed_eq hE hplen hids hsmall hdraw hk, if_pos hlast, if_pos hlast]
      exact ⟨rfl, rfl, key_behaviorDone ..⟩
  · next hlast =>
      have hk' : k < m + 1 := by omega
      have hrecv : (behaviorAt ids k (chainContext g pt r (m + 2) k)).onRecv _ = _ :=
        recv_lastVal hE hplen hsmall hdraw hk'
      rw [handed_eq hE hplen hids hsmall hdraw (Nat.lt_succ_self _), packets,
        List.map_singleton, handed_eq hE hplen hids hsmall hdraw hk, if_neg hlast,
        if_neg hlast, Gdh2KeyExchange.update_one rfl rfl hrecv]
      exact ⟨rfl, rfl, key_behaviorDone ..⟩

end Exact

/-- What the first node makes goes through all others in their order, each with
a buffer of 66 bytes for every node and one more. No call fails, every output
fits, and the last node and all others get the key of the product of all scalars.
Up to 255 nodes, this is what their exchanges do with the packets they are
given. The curve is one with coordinates of 32 bytes. -/
theorem product_key_agreed {g : EcpGroup} {pt : ZMod g.N → EcpPoint} (hE : g.Exact pt)
    (hplen : g.plen = 32) {draw : Nat → Nat → Nat} {r : Nat → Int}
    (hdraw : ∀ k < m + 2, g.drawScalar (draw k) 30 0 = .ok (r k)) :
    ∃ (ctx : Nat → Gdh2Context) (out : Nat → List UInt8),
      (∀ k < m + 2,
        gdh2Pass g (m + 2) (gdh2Bufsize * (m + 3)) draw k = .ok (ctx k, out k) ∧
        (out k).length ≤ gdh2Bufsize * (m + 3)) ∧
      gdh2ExportKey (ctx (m + 1)) gdh2Bufsize =
        .ok (keyOf g (pt (∏ i ∈ Finset.range (m + 2), (r i : ZMod g.N)))) ∧
      (∀ k < m + 1, ∃ ctx',
        gdh2ComputeKey (ctx k) (k + 1) (out (m + 1)) (out (m + 1)).length gdh2Bufsize =
          .ok (ctx', keyOf g (pt (∏ i ∈ Finset.range (m + 2), (r i : ZMod g.N))))) ∧
      ∀ ids : Fin (m + 2) → UInt16, (∀ i j, i < j → ids i < ids j) → m + 2 ≤ 255 →
        ∀ k < m + 2,
          (start g ids draw k).2.2 = true ∧
          (handed g ids draw k).ok = true ∧
          packets ids k (handed g ids draw k).wrote =
            [if k = m + 1 then ⟨cmdGdh2LastVal, idOf ids k, broadcastAddr, out k⟩
              else ⟨cmdGdh2NodeVal, idOf ids k, idOf ids (k + 1), out k⟩] ∧
          (finished g ids draw k).ok = true ∧
          (finished g ids draw k).state.status = .completed ∧
          (finished g ids draw k).state.key =
            keyOf g (pt (∏ i ∈ Finset.range (m + 2), (r i : ZMod g.N))) := by
  have hbyte : 2 * g.plen + 1 < 256 := by
    rw [hplen]
    decide
  have hroom : (m + 2 + 1) * (2 * g.plen + 2) ≤ gdh2Bufsize * (m + 3) := by
    rw [hplen, gdh2Bufsize]
    omega
  have hkey : g.plen ≤ gdh2Bufsize := by
    rw [hplen]
    decide
  refine ⟨chainContext g pt r (m + 2), bytesOf g pt r m, fun k hk => ⟨?_, ?_⟩, ?_,
    fun k hk => ⟨⟨g, r k, (wholePt g pt r m).X, m + 2⟩, ?_⟩,
    fun ids hids hsmall k hk => ⟨?_, ?_, ?_, ?_⟩⟩
  · exact gdh2Pass_pt hE hdraw (Nat.le_add_left 2 m) hbyte hroom hk
  · exact bytesOf_length_le hplen hk
  · rw [chainContext, if_pos rfl]
    exact gdh2ExportKey_pt hE (product_ne_zero hE hdraw (Nat.le_refl _)) hkey
  · exact gdh2ComputeKey_handsOn hE hdraw (Nat.succ_lt_succ hk) hbyte hkey
  · rw [start_eq hE hplen hids hdraw hsmall hk]
  · rw [handed_eq hE hplen hids hsmall hdraw hk]
  · have hlen : (bytesOf g pt r m k).length < 2 ^ 16 := bytesOf_length_lt hplen hsmall hk
    rw [handed_eq hE hplen hids hsmall hdraw hk, packets, List.map_singleton, valOf]
    split <;> rw [valPacket_pkt hlen]
  · exact finished_completed hE hplen hids hsmall hdraw hk

/-- Three nodes with the scalars 4, 2 and 1. -/
theorem product_key_agreed_three :
    (List.range 3).map (fun k => (finished (m := 1) sevenPoints Agreement.threeIds
      (fun k _ => [4, 2, 1].getD k 0) k).state.key) =
      List.replicate 3 (keyOf sevenPoints (sevenPt 1)) := by
  have hdraw : ∀ k < 3, sevenPoints.drawScalar (fun _ => [4, 2, 1].getD k 0) 30 0 =
      .ok ([4, 2, 1].getD k 0) := by
    decide
  obtain ⟨_, _, _, _, _, hall⟩ := product_key_agreed (m := 1) sevenPoints_exact
    (by decide) hdraw
  refine List.eq_replicate_iff.mpr ⟨rfl, fun key hkey => ?_⟩
  obtain ⟨k, hk, rfl⟩ := List.mem_map.mp hkey
  rw [(hall Agreement.threeIds (by decide) (by decide) k (List.mem_range.mp hk)).2.2.2.2.2]
  congr 2

end Chain

end LibSmoke
