/-!
# Photon energies

Constants in centimetres, grams and seconds, and the energy of a photon by its
frequency.
-/

namespace StellarWind

/-- The speed of light in centimetres per second. -/
def lightSpeed : Float := 2.997925e10

/-- Planck's constant in erg seconds. -/
def planck : Float := 6.6262e-27

/-- Planck's constant in electronvolt seconds. -/
def planckElectronvolt : Float := 4.13620e-15

/-- The energy that ionizes hydrogen, in electronvolts. -/
def ionizationEnergy : Float := 13.6

/-- The end of the range that counts for the ionization parameter, in electronvolts. -/
def ionizationCeiling : Float := 13600.0

/-- The energy in electronvolts of a photon of the given frequency. -/
def photonEnergy (freq : Float) : Float := planckElectronvolt * freq

def ionizes (freq : Float) : Bool := photonEnergy freq > ionizationEnergy

end StellarWind
