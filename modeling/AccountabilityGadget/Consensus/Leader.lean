import Mathlib.Data.List.Sort
import AccountabilityGadget.Consensus.Core

/-!
# Leader election (`consensus/src/leader.rs`)

The leader of a round is drawn by a generator that is seeded with the sum of a constant of the
committee and the round.  The constant comes from the second smallest key.  The generator
(`StdRng::seed_from_u64(seed).gen::<usize>()`) is third-party code and a parameter here.

* `RandomLeaderElector` — with at least two authorities there is a second key, and every draw is the
  index of a key.
* `RandomLeaderElector.env` — the task of an authority that elects its leaders so.
-/

set_option autoImplicit false

namespace AccountabilityGadget.Consensus

open Encoding

def Committee.size (c : Committee) : ℕ := c.authorities.keys.length

/-- The first eight bytes, most significant byte first. -/
def getRandomSeed (p : PublicKey) : U64 :=
  (p.data.bytes.take 8).foldl (fun v byte => (v <<< 8) + Fin.ofNat (2 ^ 64) byte.toNat) 0

structure RandomLeaderElector where
  committee : Committee
  keys : List PublicKey
  rngSeed : U64
  length_keys : keys.length = committee.size
  size_pos : 0 < committee.size

namespace RandomLeaderElector

/-- `keys.sort()`. -/
def sortedKeys (c : Committee) : List PublicKey :=
  c.authorities.keys.insertionSort fun a b => a.data ≤ b.data

theorem length_sortedKeys (c : Committee) : (sortedKeys c).length = c.size :=
  List.length_insertionSort _ _

/-- The source indexes `keys[1]`. -/
def new (committee : Committee) (h : 1 < committee.size) : RandomLeaderElector where
  committee := committee
  keys := sortedKeys committee
  rngSeed := getRandomSeed ((sortedKeys committee).get ⟨1, by rwa [length_sortedKeys]⟩) ^^^
    0xbeefdeadbeefdead
  length_keys := length_sortedKeys committee
  size_pos := Nat.lt_trans Nat.zero_lt_one h

def getLeader (e : RandomLeaderElector) (gen : U64 → ℕ) (round : RoundNumber) : PublicKey :=
  e.keys.get ⟨gen (e.rngSeed + round) % e.committee.size, by
    rw [e.length_keys]
    exact Nat.mod_lt _ e.size_pos⟩

/-- A leader is an authority of the committee. -/
theorem getLeader_mem (c : Committee) (h : 1 < c.size) (gen : U64 → ℕ) (round : RoundNumber) :
    (new c h).getLeader gen round ∈ c.authorities.keys := by
  apply (List.mem_insertionSort fun a b : PublicKey => a.data ≤ b.data).mp
  exact List.get_mem _ _

/-- The task of one authority. -/
def env (e : RandomLeaderElector) (gen : U64 → ℕ) (cr : BatchCrypto) (name : PublicKey)
    (boycottProposals : Bool) : Env :=
  ⟨cr, e.committee, e.getLeader gen, name, boycottProposals⟩

end RandomLeaderElector

end AccountabilityGadget.Consensus
