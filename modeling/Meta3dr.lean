import Meta3dr.Aufs.Simulation
import Meta3dr.Program.Trial
import Meta3dr.Aufs.Readdir
import Meta3dr.Hostapd.LowAck
import Meta3dr.Bootlogd.Rotation
import Meta3dr.Properties.Choice
import Meta3dr.Properties.Repair
import Meta3dr.Properties.Golden
import Meta3dr.Properties.Requests
import Meta3dr.Properties.Mounts
import Meta3dr.Image.Contents
import Meta3dr.Image.Loader
import Meta3dr.Image.Publish
