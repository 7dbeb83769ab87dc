import Mathlib

/-!
# Numerals

The numerals that several modules use over a field, as instances with a name.
-/

namespace OVMesh

instance atLeastTwo_two : Nat.AtLeastTwo 2 := ⟨by norm_num⟩
instance atLeastTwo_five : Nat.AtLeastTwo 5 := ⟨by norm_num⟩
instance atLeastTwo_ten : Nat.AtLeastTwo 10 := ⟨by norm_num⟩
instance atLeastTwo_eleven : Nat.AtLeastTwo 11 := ⟨by norm_num⟩
instance atLeastTwo_twenty : Nat.AtLeastTwo 20 := ⟨by norm_num⟩
instance atLeastTwo_fifty : Nat.AtLeastTwo 50 := ⟨by norm_num⟩
instance atLeastTwo_sixty : Nat.AtLeastTwo 60 := ⟨by norm_num⟩
instance atLeastTwo_quarterTurn : Nat.AtLeastTwo 90 := ⟨by norm_num⟩
instance atLeastTwo_hundred : Nat.AtLeastTwo 100 := ⟨by norm_num⟩
instance atLeastTwo_halfTurn : Nat.AtLeastTwo 180 := ⟨by norm_num⟩
instance atLeastTwo_twoHundred : Nat.AtLeastTwo 200 := ⟨by norm_num⟩
instance atLeastTwo_threeHundred : Nat.AtLeastTwo 300 := ⟨by norm_num⟩
instance atLeastTwo_turn : Nat.AtLeastTwo 360 := ⟨by norm_num⟩
instance atLeastTwo_thousand : Nat.AtLeastTwo 1000 := ⟨by norm_num⟩
instance atLeastTwo_bins : Nat.AtLeastTwo 4096 := ⟨by norm_num⟩
instance atLeastTwo_tenThousand : Nat.AtLeastTwo 10000 := ⟨by norm_num⟩
instance atLeastTwo_hundredThousand : Nat.AtLeastTwo 100000 := ⟨by norm_num⟩

end OVMesh
