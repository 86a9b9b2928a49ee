/-!
Machine words. A number without a sign is below the bound of its word; one with a sign is below the
half of it, and not below the negative half.
-/

namespace SpecUpgrade.Word

def bound32 : Nat := 4294967296

def bound64 : Nat := 18446744073709551616

def half32 : Nat := 2147483648

def half64 : Nat := 9223372036854775808

end SpecUpgrade.Word
