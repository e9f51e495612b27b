import LibSmoke.Sban.Bd1

/-!
# The exchange with a chair

`bd2.c`: the chair picks a key, and takes off it what it shares with each of the
others before it sends it there; the other adds that again. What is sent can be
the zero point, and is good all the same, since nobody multiplies it.

A call that fails leaves the context as it was here. In the source it may be
left in between, and is given up by the objects that hold it.
-/

namespace LibSmoke

structure Bd2Context where
  grp : EcpGroup
  priv : Int
  pub : EcpPoint
  peer : EcpPoint
  X : EcpPoint
  key : EcpPoint

def bd2Init (grp : EcpGroup) : Bd2Context :=
  ⟨grp, 0, ⟨0, 0, 0⟩, ⟨0, 0, 0⟩, ⟨0, 0, 0⟩, ⟨0, 0, 0⟩⟩

def bd2MakeKey (ctx : Bd2Context) (draw : Nat → Nat) : Except SbanError Bd2Context := do
  let (_, key) ← ctx.grp.ecpGenKeypair draw
  .ok { ctx with key := key }

def bd2ExportKey (ctx : Bd2Context) (buflen : Nat) : Except SbanError (List UInt8) :=
  if mpiSize ctx.key.X > buflen then .error .bufferTooShort
  else mpiWriteBinary ctx.key.X ctx.grp.keyLen

def bd2ComputeSharedPoint (ctx : Bd2Context) : Except SbanError EcpPoint := do
  ctx.grp.ecpCheckPubkey ctx.peer
  let P ← ctx.grp.ecpMul ctx.priv ctx.peer
  if P.Z = 0 then .error .ecpBadInputData else .ok P

/-- `ecp_add` to a point whose result nobody looks at: what the point holds
after it. -/
def EcpGroup.ecpAddTo (g : EcpGroup) (R p q : EcpPoint) : EcpPoint :=
  match g.ecpAddMixed p q with
  | .error _ => R
  | .ok R => match g.ecpNormalizeJac R with
    | .error _ => R
    | .ok R => R

def bd2MakeVal (ctx : Bd2Context) (buflen : Nat) :
    Except SbanError (Bd2Context × List UInt8) := do
  let P ← bd2ComputeSharedPoint ctx
  let X := ctx.grp.ecpAddTo ctx.X ctx.key (ctx.grp.ecpOpp P)
  let buf ← ctx.grp.ecpTlsWritePoint X buflen
  .ok ({ ctx with X := X }, buf)

def bd2ImportVal (ctx : Bd2Context) (buf : List UInt8) (buflen : Nat) :
    Except SbanError Bd2Context := do
  let (X, _) ← ctx.grp.ecpTlsReadPoint buf buflen
  .ok { ctx with X := X }

def bd2CalcKey (ctx : Bd2Context) : Except SbanError Bd2Context := do
  let P ← bd2ComputeSharedPoint ctx
  let key ← ctx.grp.ecpAdd ctx.X P
  .ok { ctx with key := key }

def bd2MakePublic (ctx : Bd2Context) (buflen : Nat) (draw : Nat → Nat) :
    Except SbanError (Bd2Context × List UInt8) := do
  let (priv, pub) ← ctx.grp.ecpGenKeypair draw
  let buf ← ctx.grp.ecpTlsWritePoint pub buflen
  .ok ({ ctx with priv := priv, pub := pub }, buf)

def bd2ReadPublic (ctx : Bd2Context) (buf : List UInt8) (buflen : Nat) :
    Except SbanError Bd2Context := do
  let (peer, _) ← ctx.grp.ecpTlsReadPoint buf buflen
  .ok { ctx with peer := peer }

/-! ## On an exact group -/

section Exact

variable {g : EcpGroup} {pt : ZMod g.N → EcpPoint} (hE : g.Exact pt)

include hE

theorem ecpGenKeypair_pt {draw : Nat → Nat} {d : Int}
    (hdraw : g.drawScalar draw 30 0 = .ok d) : g.ecpGenKeypair draw = .ok (d, pt d) := by
  obtain ⟨h0, hd⟩ := drawScalar_range hdraw
  have := Fact.mk hE.prime
  rw [EcpGroup.ecpGenKeypair, hdraw, ← hE.base]
  simp only [bind, Except.bind]
  rw [hE.ecpMul_pt h0 hd one_ne_zero, mul_one]

variable {priv : Int} {pub X key : EcpPoint}

theorem bd2MakeKey_pt {peer : EcpPoint} {draw : Nat → Nat} {d : Int}
    (hdraw : g.drawScalar draw 30 0 = .ok d) :
    bd2MakeKey ⟨g, priv, pub, peer, X, key⟩ draw = .ok ⟨g, priv, pub, peer, X, pt d⟩ := by
  simp only [bd2MakeKey]
  rw [ecpGenKeypair_pt hE hdraw]
  rfl

theorem bd2MakePublic_pt {peer : EcpPoint} {draw : Nat → Nat} {d : Int}
    (hdraw : g.drawScalar draw 30 0 = .ok d) {buflen : Nat}
    (hlen : 2 * g.plen + 2 ≤ buflen) :
    bd2MakePublic ⟨g, priv, pub, peer, X, key⟩ buflen draw =
      .ok (⟨g, d, pt d, peer, X, key⟩, pointBytes g (pt d)) := by
  simp only [bd2MakePublic]
  rw [ecpGenKeypair_pt hE hdraw]
  simp only [bind, Except.bind]
  rw [ecpTlsWritePoint_pt hE _ hlen]

theorem bd2ReadPublic_pt {peer : EcpPoint} (s : ZMod g.N) {size buflen : Nat}
    (hsize : size = 2 * g.plen + 2) (hroom : g.Room buflen) :
    bd2ReadPublic ⟨g, priv, pub, peer, X, key⟩ (padded size (pointBytes g (pt s)))
      buflen = .ok ⟨g, priv, pub, pt s, X, key⟩ := by
  obtain ⟨p, hread, -⟩ := ecpTlsReadPoint_padded hE s hroom []
  rw [List.append_nil] at hread
  simp only [bd2ReadPublic]
  rw [hsize, hread]
  rfl

theorem bd2ImportVal_pt {peer : EcpPoint} (s : ZMod g.N) {size buflen : Nat}
    (hsize : size = 2 * g.plen + 2) (hroom : g.Room buflen) :
    bd2ImportVal ⟨g, priv, pub, peer, X, key⟩ (padded size (pointBytes g (pt s)))
      buflen = .ok ⟨g, priv, pub, peer, pt s, key⟩ := by
  obtain ⟨p, hread, -⟩ := ecpTlsReadPoint_padded hE s hroom []
  rw [List.append_nil] at hread
  simp only [bd2ImportVal]
  rw [hsize, hread]
  rfl

/-- What two parties share. -/
theorem bd2ComputeSharedPoint_pt (h0 : 0 < priv) (hd : priv < g.N) {s : ZMod g.N}
    (hs : s ≠ 0) :
    bd2ComputeSharedPoint ⟨g, priv, pub, pt s, X, key⟩ = .ok (pt (priv * s)) := by
  have hne := hE.scalar_ne_zero (EcpGroup.Exact.cast_ne_zero h0 hd) hs
  simp only [bd2ComputeSharedPoint]
  rw [hE.onCurve s hs]
  simp only [bind, Except.bind]
  rw [hE.ecpMul_pt h0 hd hs]
  simp only []
  rw [if_neg (by rw [hE.affine hne]; decide)]

theorem bd2MakeVal_pt (h0 : 0 < priv) (hd : priv < g.N) {s c : ZMod g.N} (hs : s ≠ 0)
    {buflen : Nat} (hlen : 2 * g.plen + 2 ≤ buflen) :
    bd2MakeVal ⟨g, priv, pub, pt s, X, pt c⟩ buflen =
      .ok (⟨g, priv, pub, pt s, pt (c - priv * s), pt c⟩,
        pointBytes g (pt (c - priv * s))) := by
  have hne := hE.scalar_ne_zero (EcpGroup.Exact.cast_ne_zero h0 hd) hs
  have hadd : g.ecpAddTo X (pt c) (g.ecpOpp (pt (priv * s))) = pt (c - priv * s) := by
    have hsum := hE.ecpAdd_pt c (-(priv * s))
    rw [EcpGroup.ecpAdd] at hsum
    rw [hE.opp _ hne, EcpGroup.ecpAddTo, sub_eq_add_neg]
    cases hmixed : g.ecpAddMixed (pt c) (pt (-(priv * s))) with
    | error e =>
        rw [hmixed] at hsum
        cases hsum
    | ok R =>
        rw [hmixed] at hsum
        simp only [bind, Except.bind] at hsum ⊢
        rw [hsum]
  simp only [bd2MakeVal]
  rw [bd2ComputeSharedPoint_pt hE h0 hd hs]
  simp only [bind, Except.bind]
  rw [hadd, ecpTlsWritePoint_pt hE _ hlen]

theorem bd2CalcKey_pt (h0 : 0 < priv) (hd : priv < g.N) {s : ZMod g.N} (hs : s ≠ 0)
    (x : ZMod g.N) :
    bd2CalcKey ⟨g, priv, pub, pt s, pt x, key⟩ =
      .ok ⟨g, priv, pub, pt s, pt x, pt (x + priv * s)⟩ := by
  simp only [bd2CalcKey]
  rw [bd2ComputeSharedPoint_pt hE h0 hd hs]
  simp only [bind, Except.bind]
  rw [hE.ecpAdd_pt]

theorem bd2ExportKey_pt {peer : EcpPoint} {c : ZMod g.N} (hc : c ≠ 0) {buflen : Nat}
    (hlen : g.plen ≤ buflen) :
    bd2ExportKey ⟨g, priv, pub, peer, X, pt c⟩ buflen = .ok (keyOf g (pt c)) := by
  obtain ⟨-, ⟨hX0, hX⟩, -⟩ := EcpGroup.onCurve_range (hE.onCurve c hc)
  have hsize := EcpGroup.mpiSize_coord hX0 hX
  have hfit : mpiSize (pt c).X ≤ buflen := hsize.trans hlen
  rw [bd2ExportKey, if_neg (Nat.not_lt.mpr hfit)]
  exact mpiWriteBinary_key hE c

end Exact

end LibSmoke
