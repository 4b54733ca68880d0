import Mathlib.Data.Nat.Basic
import Poncos.MultiApp.WellFormed

/-!
The slots selected for a job.  The wait counts free cpus up to the demand or beyond it,
the selection stops at the demand alone, so that the two agree exactly on the demands
that whole slots cover without a rest.
-/

namespace Poncos.MultiApp

open Poncos.Library
open Poncos.Library.Execution
open Poncos.Controller

def freeSlot (slots : Nat) (mu : SlotAllocation) : Option Nat :=
  (List.range slots).find? fun s => mu[s]? = some none

/-- The first free slot of every machine that has one, counted from machine `m`. -/
def freeSlots (slots : Nat) : Nat → MachineUsage → ExecuteConfig
  | _, [] => []
  | m, mu :: rest =>
      match freeSlot slots mu with
      | some s => (m, s) :: freeSlots slots (m + 1) rest
      | none => freeSlots slots (m + 1) rest

theorem firstFree_eq {mu : SlotAllocation} {xs : List Nat} (hxs : ∀ s ∈ xs, s < mu.length) :
    firstFree mu xs = .ok (xs.find? fun s => mu[s]? = some none) := by
  induction xs with
  | nil => rfl
  | cons s rest ih =>
      have hlt := hxs s List.mem_cons_self
      have hget := List.getElem?_eq_getElem hlt
      rw [firstFree, bind_of_ok (fetch_eq_ok.mpr hget), List.find?_cons, hget]
      rcases eq_or_ne mu[s] none with hfree | htaken
      · simp [hfree]
      · rw [if_neg htaken, ih fun t ht => hxs t (List.mem_cons_of_mem s ht)]
        simp [htaken]

theorem allocatedSlots_one {mu : SlotAllocation} {xs : List Nat}
    (hxs : ∀ s ∈ xs, s < mu.length) : allocatedSlots 1 mu xs 0 =
      .ok (if (xs.find? fun s => mu[s]? = some none).isSome then 1 else 0) := by
  induction xs with
  | nil => rfl
  | cons s rest ih =>
      have hlt := hxs s List.mem_cons_self
      have hget := List.getElem?_eq_getElem hlt
      rw [allocatedSlots, bind_of_ok (fetch_eq_ok.mpr hget), List.find?_cons, hget]
      rcases eq_or_ne mu[s] none with hfree | htaken
      · simp [hfree]
      · rw [if_neg htaken, ih fun t ht => hxs t (List.mem_cons_of_mem s ht)]
        simp [htaken]

theorem freeCpus_one {systemConfig : SystemConfig} {usage : MachineUsage}
    (husage : ∀ mu ∈ usage, mu.length = systemConfig.slots.length) (m counter : Nat) :
    freeCpus systemConfig 1 usage counter =
      .ok (counter + (freeSlots systemConfig.slots.length m usage).length *
        systemConfig.slotSize) := by
  induction usage generalizing m counter with
  | nil => simp [freeCpus, freeSlots]
  | cons mu rest ih =>
      have hmu := husage mu List.mem_cons_self
      rw [freeCpus, allocatedSlots_one fun s hs => by
        rw [hmu]
        exact List.mem_range.mp hs, bind_of_ok rfl, ← freeSlot,
        freeSlots, ih (fun mu hmu => husage mu (List.mem_cons_of_mem _ hmu)) (m + 1),
        ih (fun mu hmu => husage mu (List.mem_cons_of_mem _ hmu)) (m + 1)]
      cases freeSlot systemConfig.slots.length mu with
      | none => simp
      | some s =>
          simp only [Option.isSome_some, if_true, List.length_cons, Nat.add_mul]
          refine congrArg Except.ok ?_
          omega

theorem ressourceAvailable_one {c : Controller}
    (husage : ∀ mu ∈ c.machineUsage, mu.length = c.systemConfig.slots.length)
    (requested : Nat) :
    c.ressourceAvailable requested 1 = .ok (decide (requested ≤
      (freeSlots c.systemConfig.slots.length 0 c.machineUsage).length *
        c.systemConfig.slotSize)) := by
  rw [ressourceAvailable, freeCpus_one husage 0, bind_of_ok rfl, Nat.zero_add]

/-- Where whole slots cover the demand, the loop ends with the first ones. -/
theorem selectSlots_eq {slots slotSize k : Nat} (hsize : 0 < slotSize) {usage : MachineUsage}
    (husage : ∀ mu ∈ usage, mu.length = slots) {m : Nat} {config : ExecuteConfig}
    (hconfig : config.length < k) :
    selectSlots slots slotSize (k * slotSize) m usage config =
      .ok (config ++ (freeSlots slots m usage).take (k - config.length)) := by
  induction usage generalizing m config with
  | nil => simp [selectSlots, freeSlots]
  | cons mu rest ih =>
      have hmu := husage mu List.mem_cons_self
      have hrest : ∀ mu ∈ rest, mu.length = slots := fun mu hmu =>
        husage mu (List.mem_cons_of_mem _ hmu)
      have hfree : firstFree mu (List.range slots) = .ok (freeSlot slots mu) :=
        firstFree_eq fun s hs => by
          rw [hmu]
          exact List.mem_range.mp hs
      rw [selectSlots, bind_of_ok hfree, freeSlots]
      cases freeSlot slots mu with
      | none =>
          have hne : ¬ config.length * slotSize = k * slotSize := by
            rw [Nat.mul_left_inj hsize.ne']
            omega
          simp only [if_neg hne]
          exact ih hrest hconfig
      | some s =>
          have hstep : k - config.length = k - (config ++ [(m, s)]).length + 1 := by
            simp only [List.length_append, List.length_singleton]
            omega
          simp only [Nat.mul_left_inj hsize.ne']
          rw [hstep, List.take_succ_cons]
          split
          · rename_i hlast
            simp [hlast]
          · rename_i hmore
            rw [ih hrest (by
              simp only [List.length_append, List.length_singleton] at hmore ⊢
              omega)]
            simp

/-- What the selection is to return for a demand. -/
structure Selected (usage : MachineUsage) (slotSize reqCpus : Nat) (config : ExecuteConfig) :
    Prop where
  nonempty : config ≠ []
  nodup : config.Nodup
  free : ∀ p ∈ config, usage.get? p = some none
  machines : (config.map Prod.fst).Nodup
  covers : reqCpus ≤ config.length * slotSize
  minimal : ∀ k, reqCpus ≤ k * slotSize → config.length ≤ k
  asserted : config.length * slotSize = reqCpus

/-- Once enough cpus are free, the selection succeeds for the multiples of a slot and
for no other demand. -/
theorem selection_iff_dvd {c : Controller} {reqCpus : Nat}
    (husage : ∀ mu ∈ c.machineUsage, mu.length = c.systemConfig.slots.length)
    (hsize : 1 ≤ c.systemConfig.slotSize) (hpos : 0 < reqCpus)
    (havailable : c.ressourceAvailable reqCpus 1 = .ok true) :
    (∃ config, selectSlots c.systemConfig.slots.length c.systemConfig.slotSize reqCpus 0
        c.machineUsage [] = .ok config ∧
          Selected c.machineUsage c.systemConfig.slotSize reqCpus config) ↔
      c.systemConfig.slotSize ∣ reqCpus := by
  constructor
  · rintro ⟨config, _, hselected⟩
    exact ⟨config.length, by rw [Nat.mul_comm, hselected.asserted]⟩
  · rintro ⟨k, rfl⟩
    rw [Nat.mul_comm] at hpos havailable ⊢
    have hk : 0 < k := Nat.pos_of_mul_pos_right hpos
    rw [ressourceAvailable_one husage] at havailable
    have henough : k ≤ (freeSlots c.systemConfig.slots.length 0 c.machineUsage).length := by
      have hle := decide_eq_true_eq.mp (Except.ok.inj havailable)
      exact Nat.le_of_mul_le_mul_right hle hsize
    have hempty : ([] : ExecuteConfig).length < k := hk
    have hselect := selectSlots_eq hsize husage (m := 0) hempty
    rw [List.nil_append, List.length_nil, Nat.sub_zero] at hselect
    refine ⟨_, hselect, ?_⟩
    have hnone : Picked c.machineUsage 0 [] := ⟨List.nodup_nil, by simp, by simp⟩
    obtain ⟨_, hpicked⟩ := selectSlots_picked hnone rfl hselect
    have hlength : ((freeSlots c.systemConfig.slots.length 0 c.machineUsage).take k).length =
        k := by
      rw [List.length_take, Nat.min_eq_left henough]
    refine ⟨?_, hpicked.machines.of_map, hpicked.free, hpicked.machines, ?_, ?_, ?_⟩
    · rw [← List.length_pos_iff, hlength]
      exact hk
    · rw [hlength]
    · intro k' hle
      rw [hlength]
      exact Nat.le_of_mul_le_mul_right hle hsize
    · rw [hlength]

/-- A running job and two machines with a free slot each. -/
def halfBusy : Controller :=
  { Controller.create ["a", "b"] ⟨[⟨[0, 1], []⟩, ⟨[2, 3], []⟩]⟩ with
    machineUsage := [[some 0, none], [none, none]] }

theorem selection_iff_dvd_halfBusy :
    ∃ config, selectSlots 2 2 4 0 halfBusy.machineUsage [] = .ok config ∧
      Selected halfBusy.machineUsage 2 4 config := by
  have havailable : halfBusy.ressourceAvailable 4 1 = .ok true := by decide
  exact (selection_iff_dvd (by decide) (by decide) (by decide) havailable).mpr (by decide)

/-- Three cpus are available, and both machines are selected, but no number of slots of
two cpus has exactly three. -/
theorem not_selected_threeCpus :
    3 ≤ halfBusy.machines.length * halfBusy.systemConfig.slotSize ∧
      halfBusy.ressourceAvailable 3 1 = .ok true ∧
      selectSlots 2 2 3 0 halfBusy.machineUsage [] = .ok [(0, 1), (1, 0)] ∧
      ¬ ∃ config, selectSlots 2 2 3 0 halfBusy.machineUsage [] = .ok config ∧
        Selected halfBusy.machineUsage 2 3 config := by
  refine ⟨by decide, by decide, by decide, ?_⟩
  rintro ⟨config, _, hselected⟩
  have hasserted := hselected.asserted
  omega

end Poncos.MultiApp
