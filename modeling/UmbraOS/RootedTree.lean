import Mathlib.Data.Set.Insert
import Mathlib.Logic.Relation

namespace UmbraOS

open Relation

variable {α : Type}

/-- Every node is reached from the root over the edges, by one parent each, and no path comes back
to where it started. -/
structure RootedTree (nodes : Set α) (edge : α → α → Prop) (root : α) : Prop where
  rooted : root ∈ nodes
  within : ∀ a b, edge a b → a ∈ nodes ∧ b ∈ nodes
  single : ∀ a b c, edge a c → edge b c → a = b
  reached : ∀ c ∈ nodes, ReflTransGen edge root c
  acyclic : ∀ a, ¬TransGen edge a a

namespace RootedTree

variable {nodes : Set α} {edge : α → α → Prop} {root : α}

theorem singleton (hnone : ∀ a b, ¬edge a b) : RootedTree {root} edge root := by
  refine ⟨rfl, ?_, ?_, ?_, ?_⟩
  · exact fun a b h => absurd h (hnone a b)
  · exact fun a b c h => absurd h (hnone a c)
  · intro c hc
    obtain rfl : c = root := hc
    exact ReflTransGen.refl
  · intro a h
    obtain ⟨b, hab, _⟩ := TransGen.head'_iff.mp h
    exact hnone a b hab

/-- The edges with one more, from `p` to the new node `c`. -/
def addEdge (edge : α → α → Prop) (p c : α) (a b : α) : Prop := edge a b ∨ a = p ∧ b = c

theorem addEdge_reflTransGen {p c a b : α} (h : ReflTransGen edge a b) :
    ReflTransGen (addEdge edge p c) a b :=
  ReflTransGen.mono (fun _ _ he => Or.inl he) a b h

/-- A path over the new edge ends there, because the new node has no edge out of it. -/
theorem addEdge_transGen (h : RootedTree nodes edge root) {p c a b : α} (hc : c ∉ nodes)
    (hpath : TransGen (addEdge edge p c) a b) :
    TransGen edge a b ∨ ReflTransGen edge a p ∧ b = c := by
  induction hpath with
  | single hab =>
    rcases hab with hab | ⟨rfl, rfl⟩
    · exact Or.inl (TransGen.single hab)
    · exact Or.inr ⟨ReflTransGen.refl, rfl⟩
  | @tail x b _ hxb ih =>
    rcases ih with hax | ⟨hap, rfl⟩
    · rcases hxb with hxb | ⟨rfl, rfl⟩
      · exact Or.inl (hax.tail hxb)
      · exact Or.inr ⟨hax.to_reflTransGen, rfl⟩
    · rcases hxb with hxb | ⟨rfl, rfl⟩
      · exact absurd (h.within _ _ hxb).1 hc
      · exact Or.inr ⟨hap, rfl⟩

theorem addLeaf (h : RootedTree nodes edge root) {p c : α} (hp : p ∈ nodes) (hc : c ∉ nodes) :
    RootedTree (insert c nodes) (addEdge edge p c) root := by
  have hpc : p ≠ c := by
    rintro rfl
    exact hc hp
  refine ⟨Set.mem_insert_of_mem c h.rooted, ?_, ?_, ?_, ?_⟩
  · intro a b hab
    rcases hab with hab | ⟨rfl, rfl⟩
    · obtain ⟨ha, hb⟩ := h.within a b hab
      exact ⟨Set.mem_insert_of_mem c ha, Set.mem_insert_of_mem c hb⟩
    · exact ⟨Set.mem_insert_of_mem b hp, Set.mem_insert b nodes⟩
  · intro a b x ha hb
    rcases ha with ha | ⟨rfl, rfl⟩
    · rcases hb with hb | ⟨rfl, rfl⟩
      · exact h.single a b x ha hb
      · exact absurd (h.within a x ha).2 hc
    · rcases hb with hb | ⟨rfl, _⟩
      · exact absurd (h.within b x hb).2 hc
      · rfl
  · intro x hx
    rcases Set.mem_insert_iff.mp hx with rfl | hx
    · exact (addEdge_reflTransGen (h.reached p hp)).tail (Or.inr ⟨rfl, rfl⟩)
    · exact addEdge_reflTransGen (h.reached x hx)
  · intro a hloop
    rcases h.addEdge_transGen hc hloop with hold | ⟨hap, rfl⟩
    · exact h.acyclic a hold
    · rcases ReflTransGen.cases_head hap with he | ⟨b, hab, _⟩
      · exact hpc he.symm
      · exact hc (h.within a b hab).1

end RootedTree

end UmbraOS
